import Lunchbox.RefPtr.Model

set_option autoImplicit false

/-! # Counts in the middle of a deletion

The invariant of the heap (`Inv`) is stated for the states inside an operation too. There the
count of an object is the number of `RefPtr` that point to it, without those that are being
destructed (`D`), and with the calls of `unref` that are still to come (`u`). A call of `unref`
keeps it for whatever is in the middle of being done around it (`unref_spec`); the recursion
ends, as each deletion leaves fewer objects.
-/

namespace Lunchbox.RefPtr

open Function
open SpinLock (toInt32)

variable {h h' : Heap} {x y : Nat} {c : Cell} {S : Finset Cell} {ptr ptr' : Cell → Option Nat}

/-! ## Counting pointers -/

/-- The number of cells of `S` that point to `x`. -/
def pointers (S : Finset Cell) (ptr : Cell → Option Nat) (x : Nat) : Nat :=
  (S.filter fun c => ptr c = some x).card

theorem pointers_erase (ptr : Cell → Option Nat) (hc : c ∈ S) (x : Nat) :
    pointers S ptr x = pointers (S.erase c) ptr x + if ptr c = some x then 1 else 0 := by
  unfold pointers
  rw [Finset.filter_erase]
  by_cases hx : ptr c = some x
  · rw [if_pos hx, Finset.card_erase_add_one (Finset.mem_filter.mpr ⟨hc, hx⟩)]
  · have hn : c ∉ S.filter fun c => ptr c = some x := fun hm => hx (Finset.mem_filter.mp hm).2
    rw [if_neg hx, Finset.erase_eq_of_notMem hn, Nat.add_zero]

theorem pointers_congr (heq : ∀ c ∈ S, ptr c = ptr' c) (x : Nat) :
    pointers S ptr x = pointers S ptr' x := by
  unfold pointers
  rw [Finset.filter_congr fun c hc => by rw [heq c hc]]

theorem pointers_eq_zero (hz : pointers S ptr x = 0) (hc : c ∈ S) : ptr c ≠ some x := by
  intro hx
  rw [pointers, Finset.card_eq_zero] at hz
  exact Finset.notMem_empty c (hz ▸ Finset.mem_filter.mpr ⟨hc, hx⟩)

/-! ## The log -/

def Event.object : Event → Nat
  | .ref x | .unref x | .delete x => x

/-- After its deletion there is no call on an object. -/
def Ordered (log : List Event) : Prop :=
  ∀ pre x post, log = pre ++ .delete x :: post → ∀ e ∈ post, e.object ≠ x

theorem Ordered.snoc {log : List Event} {e : Event} (ho : Ordered log)
    (he : .delete e.object ∉ log) : Ordered (log ++ [e]) := by
  intro pre x post hlog
  rcases List.eq_nil_or_concat' post with rfl | ⟨post, e', rfl⟩
  · simp
  · rw [← List.cons_append, ← List.append_assoc] at hlog
    obtain ⟨hpre, hlast⟩ := List.append_inj' hlog rfl
    rw [List.cons.injEq] at hlast
    rw [← hlast.1]
    intro e'' hmem
    rcases List.mem_append.mp hmem with hmem | hmem
    · exact ho pre x post hpre e'' hmem
    · rw [List.mem_singleton.mp hmem]
      rintro rfl
      exact he (by rw [hpre]; simp)

structure LogInv (h : Heap) : Prop where
  known : ∀ e ∈ h.log, e.object < h.next
  deleted : ∀ x, .delete x ∈ h.log ↔ x < h.next ∧ (h.objects x).deleted = true
  referenced : ∀ x, .delete x ∈ h.log → .ref x ∈ h.log
  ordered : Ordered h.log

theorem LogInv.not_deleted (hl : LogInv h) (hx : h.Live x) : .delete x ∉ h.log := by
  intro hd
  have := ((hl.deleted x).mp hd).2
  rw [hx.2] at this
  cases this

/-! ## What the updates change -/

@[simp] theorem live_record (e : Event) : (h.record e).Live x ↔ h.Live x := Iff.rfl

@[simp] theorem live_setPtr (c : Cell) (p : Option Nat) :
    (h.setPtr c p).Live x ↔ h.Live x := Iff.rfl

@[simp] theorem live_setCount (y : Nat) (n : Int) : (h.setCount y n).Live x ↔ h.Live x := by
  by_cases hxy : x = y
  · subst hxy
    simp [Heap.Live, Heap.setCount]
  · simp [Heap.Live, Heap.setCount, update_of_ne hxy]

theorem live_setDeleted (y : Nat) : (h.setDeleted y).Live x ↔ h.Live x ∧ x ≠ y := by
  by_cases hxy : x = y
  · subst hxy
    simp [Heap.Live, Heap.setDeleted]
  · simp [Heap.Live, Heap.setDeleted, hxy]

/-- The cell is a member of an object that exists. -/
def Heap.Owned (h : Heap) : Cell → Prop
  | .root _ => False
  | .member x _ => h.Live x

@[simp] theorem owned_setCount (y : Nat) (n : Int) : (h.setCount y n).Owned c ↔ h.Owned c := by
  cases c with
  | root k => exact Iff.rfl
  | member x j => exact live_setCount y n

theorem Heap.Owned.of_live (hlive : ∀ x, h'.Live x → h.Live x) (hc : h'.Owned c) : h.Owned c := by
  cases c with
  | root k => exact hc
  | member x j => exact hlive x hc

theorem members_setCount (y : Nat) (n : Int) (x : Nat) :
    ((h.setCount y n).objects x).members = (h.objects x).members := by
  by_cases hxy : x = y
  · subst hxy
    simp [Heap.setCount]
  · simp [Heap.setCount, update_of_ne hxy]

theorem members_setDeleted (y x : Nat) :
    ((h.setDeleted y).objects x).members = (h.objects x).members := by
  by_cases hxy : x = y
  · subst hxy
    simp [Heap.setDeleted]
  · simp [Heap.setDeleted, update_of_ne hxy]

theorem mem_membersOf : c ∈ h.membersOf x ↔ ∃ j < (h.objects x).members, .member x j = c := by
  simp [Heap.membersOf]

theorem membersOf_setCount (y : Nat) (n : Int) (x : Nat) :
    (h.setCount y n).membersOf x = h.membersOf x := by
  rw [Heap.membersOf, members_setCount, Heap.membersOf]

theorem LogInv.setCount (hl : LogInv h) (y : Nat) (n : Int) : LogInv (h.setCount y n) := by
  refine ⟨hl.known, fun x => ?_, hl.referenced, hl.ordered⟩
  by_cases hxy : x = y
  · subst hxy
    simpa [Heap.setCount] using hl.deleted x
  · simpa [Heap.setCount, update_of_ne hxy] using hl.deleted x

/-- A call on an object that exists. -/
theorem LogInv.record {e : Event} (hl : LogInv h) (he : h.Live e.object)
    (hd : ∀ x, e ≠ .delete x) : LogInv (h.record e) := by
  have hmem : ∀ x, Event.delete x ∈ h.log ++ [e] ↔ .delete x ∈ h.log := by
    intro x
    simp [(hd x).symm]
  refine ⟨?_, fun x => (hmem x).trans (hl.deleted x), fun x hx => ?_, ?_⟩
  · intro e' he'
    rcases List.mem_append.mp he' with he' | he'
    · exact hl.known e' he'
    · rw [List.mem_singleton.mp he']
      exact he.1
  · exact List.mem_append_left _ (hl.referenced x ((hmem x).mp hx))
  · exact hl.ordered.snoc (hl.not_deleted he)

/-- The deletion of an object that exists. -/
theorem LogInv.delete (hl : LogInv h) (hy : h.Live y) (href : .ref y ∈ h.log) :
    LogInv ((h.setDeleted y).record (.delete y)) := by
  have hmem : ∀ x, Event.delete x ∈ h.log ++ [.delete y] ↔ .delete x ∈ h.log ∨ x = y := by simp
  refine ⟨?_, fun x => (hmem x).trans ?_, fun x hx => ?_, hl.ordered.snoc (hl.not_deleted hy)⟩
  · intro e he
    rcases List.mem_append.mp he with he | he
    · exact hl.known e he
    · rw [List.mem_singleton.mp he]
      exact hy.1
  · by_cases hxy : x = y
    · subst hxy
      simp [Heap.setDeleted, Heap.record, hy.1]
    · simpa [Heap.setDeleted, Heap.record, update_of_ne hxy, hxy] using hl.deleted x
  · rcases (hmem x).mp hx with hx | rfl
    · exact List.mem_append_left _ (hl.referenced x hx)
    · exact List.mem_append_left _ href

/-! ## The invariant -/

/-- The `RefPtr` that point to the object, apart from `D`, and the calls of `unref` to come. -/
def Heap.holders (h : Heap) (D : Finset Cell) (u : List Nat) (x : Nat) : Nat :=
  pointers (h.cells \ D) h.ptr x + u.count x

structure Inv (limit : Nat) (D : Finset Cell) (u : List Nat) (h : Heap) : Prop
    extends LogInv h where
  count : ∀ x, h.Live x → (h.objects x).refCount = h.holders D u x
  bound : ∀ x, h.Live x → h.holders D u x ≤ limit
  target : ∀ c ∈ h.cells \ D, ∀ x, h.ptr c = some x → h.Live x
  pending : ∀ x ∈ u, h.Live x
  members : ∀ x, h.Live x → ∀ c ∈ h.membersOf x, c ∈ h.cells
  owner : ∀ x j, .member x j ∈ h.cells → x < h.next
  dying : ∀ c ∈ D, ¬ h.Owned c
  held : ∀ x, h.Live x → (.ref x ∈ h.log ↔ 0 < h.holders D u x)

variable {limit : Nat} {D : Finset Cell} {u : List Nat}

theorem holders_cons (h : Heap) (D : Finset Cell) (u : List Nat) (x y : Nat) :
    h.holders D (y :: u) x = h.holders D u x + if y = x then 1 else 0 := by
  simp only [Heap.holders, List.count_cons, beq_iff_eq]
  omega

/-- If the objects and the log are the same, and each object has as many holders as before, the
counts are still right. -/
theorem Inv.of_same_holders {D' : Finset Cell} {u' : List Nat} (hi : Inv limit D u h)
    (hobj : h'.objects = h.objects) (hnext : h'.next = h.next) (hlog : h'.log = h.log)
    (hholders : ∀ x, h'.holders D' u' x = h.holders D u x)
    (target : ∀ c ∈ h'.cells \ D', ∀ x, h'.ptr c = some x → h.Live x)
    (pending : ∀ x ∈ u', h.Live x)
    (members : ∀ x, h.Live x → ∀ c ∈ h.membersOf x, c ∈ h'.cells)
    (owner : ∀ x j, .member x j ∈ h'.cells → x < h.next)
    (dying : ∀ c ∈ D', ¬ h.Owned c) : Inv limit D' u' h' := by
  have hlive : ∀ x, h'.Live x ↔ h.Live x := by
    intro x
    rw [Heap.Live, Heap.Live, hobj, hnext]
  refine ⟨⟨?_, ?_, ?_, ?_⟩, ?_, ?_, ?_, ?_, ?_, ?_, ?_, ?_⟩
  · rw [hlog, hnext]
    exact hi.known
  · rw [hlog, hnext, hobj]
    exact hi.deleted
  · rw [hlog]
    exact hi.referenced
  · rw [hlog]
    exact hi.ordered
  · intro x hx
    rw [hobj, hholders]
    exact hi.count x ((hlive x).mp hx)
  · intro x hx
    rw [hholders]
    exact hi.bound x ((hlive x).mp hx)
  · exact fun c hc x hx => (hlive x).mpr (target c hc x hx)
  · exact fun x hx => (hlive x).mpr (pending x hx)
  · intro x hx c hc
    rw [Heap.membersOf, hobj] at hc
    exact members x ((hlive x).mp hx) c hc
  · rw [hnext]
    exact owner
  · exact fun c hc ho => dying c hc (ho.of_live fun x => (hlive x).mp)
  · intro x hx
    rw [hlog, hholders]
    exact hi.held x ((hlive x).mp hx)

/-- The decremented count is the number of the remaining holders. -/
theorem Inv.decrement (hi : Inv limit D (y :: u) h) (hl : limit < 2 ^ 31) :
    toInt32 ((h.objects y).refCount - 1) = h.holders D u y := by
  have hy : h.Live y := hi.pending y List.mem_cons_self
  have hb := hi.bound y hy
  rw [hi.count y hy]
  rw [holders_cons, if_pos rfl] at hb ⊢
  rw [Nat.cast_add, Nat.cast_one, add_sub_cancel_right]
  exact SpinLock.toInt32_of_lt (by omega) (by omega)

theorem holders_cons_of_ne (hx : x ≠ y) : h.holders D (y :: u) x = h.holders D u x := by
  rw [holders_cons, if_neg (Ne.symm hx), Nat.add_zero]

/-- An object with a call of `unref` to come has been referenced. -/
theorem Inv.referenced_pending (hi : Inv limit D (y :: u) h) : .ref y ∈ h.log := by
  rw [hi.held y (hi.pending y List.mem_cons_self), holders_cons, if_pos rfl]
  exact Nat.succ_pos _

/-- `unref` of an object that keeps other holders. -/
theorem Inv.unref_held (hi : Inv limit D (y :: u) h) (hpos : 0 < h.holders D u y) :
    Inv limit D u ((h.setCount y (h.holders D u y)).record (.unref y)) := by
  have hy : h.Live y := hi.pending y List.mem_cons_self
  have hle : ∀ x, h.holders D u x ≤ h.holders D (y :: u) x := by
    intro x
    rw [holders_cons]
    exact Nat.le_add_right _ _
  have hlog : ∀ x, Event.ref x ∈ h.log ++ [.unref y] ↔ .ref x ∈ h.log := by simp
  refine ⟨(hi.toLogInv.setCount y _).record ((live_setCount _ _).mpr hy) (by simp), ?_, ?_, ?_,
    ?_, ?_, hi.owner, ?_, ?_⟩
  · intro x hx
    by_cases hxy : x = y
    · subst hxy
      show (update h.objects x _ x).refCount = _
      rw [update_self]
      rfl
    · show (update h.objects y _ x).refCount = _
      rw [update_of_ne hxy, hi.count x ((live_setCount _ _).mp hx), holders_cons_of_ne hxy]
      rfl
  · exact fun x hx => le_trans (hle x) (hi.bound x ((live_setCount _ _).mp hx))
  · exact fun c hc x hx => (live_setCount _ _).mpr (hi.target c hc x hx)
  · exact fun x hx => (live_setCount _ _).mpr (hi.pending x (List.mem_cons_of_mem _ hx))
  · intro x hx c hc
    exact hi.members x ((live_setCount _ _).mp hx) c ((membersOf_setCount y _ x) ▸ hc)
  · exact fun c hc ho => hi.dying c hc ((owned_setCount _ _).mp ho)
  · intro x hx
    by_cases hxy : x = y
    · subst hxy
      exact iff_of_true ((hlog x).mpr hi.referenced_pending) hpos
    · have := hi.held x ((live_setCount _ _).mp hx)
      rw [holders_cons_of_ne hxy] at this
      exact (hlog x).trans this

/-- The heap when the destruction of the members of `y` begins. -/
def Heap.deleting (h : Heap) (y : Nat) (n : Int) : Heap :=
  (((h.setCount y n).record (.unref y)).setDeleted y).record (.delete y)

theorem live_deleting (n : Int) : (h.deleting y n).Live x ↔ h.Live x ∧ x ≠ y := by
  unfold Heap.deleting
  rw [live_record, live_setDeleted, live_record, live_setCount]

theorem members_deleting (n : Int) :
    ((h.deleting y n).objects x).members = (h.objects x).members :=
  (members_setDeleted y x).trans (members_setCount y n x)

/-- `unref` of an object without other holders: nothing points to it when it is deleted. -/
theorem Inv.unref_last (hi : Inv limit D (y :: u) h) (hzero : h.holders D u y = 0) (n : Int) :
    Inv limit D u (h.deleting y n) := by
  have hy : h.Live y := hi.pending y List.mem_cons_self
  have hlive : ∀ x, (h.deleting y n).Live x ↔ h.Live x ∧ x ≠ y := fun x => live_deleting n
  have hlog : ∀ x, Event.ref x ∈ h.log ++ [.unref y] ++ [.delete y] ↔ .ref x ∈ h.log := by simp
  obtain ⟨hptr, hu⟩ := Nat.add_eq_zero_iff.mp hzero
  have hset : LogInv ((h.setCount y n).record (.unref y)) :=
    (hi.toLogInv.setCount y n).record ((live_setCount _ _).mpr hy) (by simp)
  refine ⟨hset.delete ((live_setCount _ _).mpr hy)
    (List.mem_append_left _ hi.referenced_pending), ?_, ?_, ?_, ?_, ?_, hi.owner, ?_, ?_⟩
  · intro x hx
    obtain ⟨hx, hxy⟩ := (hlive x).mp hx
    have hobj : (h.deleting y n).objects x = h.objects x := by
      show update (update h.objects y _) y _ x = h.objects x
      rw [update_of_ne hxy, update_of_ne hxy]
    rw [hobj, hi.count x hx, holders_cons_of_ne hxy]
    rfl
  · intro x hx
    obtain ⟨hx, hxy⟩ := (hlive x).mp hx
    have := hi.bound x hx
    rwa [holders_cons_of_ne hxy] at this
  · -- no remaining pointer and no call to come is to `y`
    intro c hc x hx
    refine (hlive x).mpr ⟨hi.target c hc x hx, ?_⟩
    rintro rfl
    exact pointers_eq_zero hptr hc hx
  · intro x hx
    refine (hlive x).mpr ⟨hi.pending x (List.mem_cons_of_mem _ hx), ?_⟩
    rintro rfl
    exact List.count_eq_zero.mp hu hx
  · intro x hx c hc
    obtain ⟨j, hj, rfl⟩ := mem_membersOf.mp hc
    refine hi.members x ((hlive x).mp hx).1 _ (mem_membersOf.mpr ⟨j, ?_, rfl⟩)
    rwa [members_deleting] at hj
  · exact fun c hc ho => hi.dying c hc (ho.of_live fun x hx => ((hlive x).mp hx).1)
  · intro x hx
    obtain ⟨hx, hxy⟩ := (hlive x).mp hx
    have := hi.held x hx
    rw [holders_cons_of_ne hxy] at this
    exact (hlog x).trans this

/-! ## The recursion -/

/-- What the calls inside an operation leave alone: they delete objects, and remove the members
of these and the cells `E`. -/
structure Frame (E : List Cell) (h h' : Heap) : Prop where
  next : h'.next = h.next
  live : ∀ x, h'.Live x → h.Live x
  cells : ∀ c, ¬ h.Owned c → c ∉ E → (c ∈ h'.cells ↔ c ∈ h.cells)

theorem Frame.trans {E E' : List Cell} {h'' : Heap} (hf : Frame E h h') (hf' : Frame E' h' h'') :
    Frame (E ++ E') h h'' := by
  refine ⟨hf'.next.trans hf.next, fun x hx => hf.live x (hf'.live x hx), fun c hc he => ?_⟩
  rw [List.mem_append, not_or] at he
  exact (hf'.cells c (fun ho => hc (ho.of_live hf.live)) he.2).trans (hf.cells c hc he.1)

/-- The number of objects that exist. -/
def Heap.liveCount (h : Heap) : Nat := ((Finset.range h.next).filter h.Live).card

theorem Frame.liveCount_le {E : List Cell} (hf : Frame E h h') : h'.liveCount ≤ h.liveCount := by
  unfold Heap.liveCount
  rw [hf.next]
  refine Finset.card_le_card fun x hx => ?_
  obtain ⟨hlt, hx⟩ := Finset.mem_filter.mp hx
  exact Finset.mem_filter.mpr ⟨hlt, hf.live x hx⟩

theorem liveCount_deleting (hy : h.Live y) (n : Int) :
    (h.deleting y n).liveCount < h.liveCount := by
  refine Finset.card_lt_card (Finset.ssubset_iff_of_subset ?_ |>.mpr ⟨y, ?_, ?_⟩)
  · intro x hx
    obtain ⟨hlt, hx⟩ := Finset.mem_filter.mp hx
    exact Finset.mem_filter.mpr ⟨hlt, ((live_deleting n).mp hx).1⟩
  · exact Finset.mem_filter.mpr ⟨Finset.mem_range.mpr hy.1, hy⟩
  · intro hm
    exact ((live_deleting n).mp (Finset.mem_filter.mp hm).2).2 rfl

/-- A function that does what `unref` shall do, on heaps with less than `n` objects. -/
def Releases (limit n : Nat) (f : Heap → Nat → Except Fault Heap) : Prop :=
  ∀ h D u x, Inv limit D (x :: u) h → h.liveCount < n →
    ∃ h', f h x = .ok h' ∧ Inv limit D u h' ∧ Frame [] h h'

/-- A cell that is being destructed is gone. -/
theorem Inv.removeCell (hi : Inv limit (insert c D) u h) (hc : ¬ h.Owned c) :
    Inv limit D u ((h.setPtr c none).removeCell c) := by
  have hcells : h.cells.erase c \ D = h.cells \ insert c D := by
    rw [Finset.sdiff_insert, Finset.erase_sdiff_comm]
  have hptr : ∀ c' ∈ h.cells \ insert c D, update h.ptr c none c' = h.ptr c' := by
    intro c' hc'
    refine update_of_ne ?_ _ _
    rintro rfl
    exact (Finset.mem_sdiff.mp hc').2 (Finset.mem_insert_self _ _)
  have hholders : ∀ x, ((h.setPtr c none).removeCell c).holders D u x
      = h.holders (insert c D) u x := by
    intro x
    show pointers (h.cells.erase c \ D) (update h.ptr c none) x + _ = _
    rw [hcells, pointers_congr hptr]
    rfl
  refine hi.of_same_holders rfl rfl rfl hholders ?_ hi.pending ?_ ?_ ?_
  · intro c' hc' x hx
    have hc'' : c' ∈ h.cells \ insert c D := hcells ▸ hc'
    exact hi.target c' hc'' x ((hptr c' hc'').symm.trans hx)
  · -- the cells of an object that exists are not destructed
    intro x hx c' hc'
    refine Finset.mem_erase.mpr ⟨?_, hi.members x hx c' hc'⟩
    rintro rfl
    obtain ⟨j, -, rfl⟩ := mem_membersOf.mp hc'
    exact hc hx
  · exact fun x j hm => hi.owner x j (Finset.mem_of_mem_erase hm)
  · exact fun c' hc' => hi.dying c' (Finset.mem_insert_of_mem hc')

theorem count_toList (p : Option Nat) (x : Nat) :
    p.toList.count x = if p = some x then 1 else 0 := by
  cases p with
  | none => rfl
  | some y => simp [List.count_singleton]

theorem holders_insert (hc : c ∈ h.cells \ D) (x : Nat) :
    h.holders (insert c D) ((h.ptr c).toList ++ u) x = h.holders D u x := by
  have herase := pointers_erase h.ptr hc x
  unfold Heap.holders
  rw [Finset.sdiff_insert, List.count_append, count_toList]
  omega

/-- A cell that begins to be destructed is not counted any more; the call of `unref` that it
will make is. -/
theorem Inv.beginDestruct (hi : Inv limit D u h) (hc : c ∈ h.cells) (hD : c ∉ D)
    (ho : ¬ h.Owned c) : Inv limit (insert c D) ((h.ptr c).toList ++ u) h := by
  have hcD : c ∈ h.cells \ D := Finset.mem_sdiff.mpr ⟨hc, hD⟩
  refine hi.of_same_holders rfl rfl rfl (holders_insert hcD) ?_ ?_ hi.members hi.owner ?_
  · intro c' hc'
    rw [Finset.sdiff_insert] at hc'
    exact hi.target c' (Finset.mem_of_mem_erase hc')
  · intro x hx
    rcases List.mem_append.mp hx with hx | hx
    · exact hi.target c hcD x (Option.mem_toList.mp hx)
    · exact hi.pending x hx
  · intro c' hc'
    rcases Finset.mem_insert.mp hc' with rfl | hc'
    · exact ho
    · exact hi.dying c' hc'

variable {f : Heap → Nat → Except Fault Heap} {n : Nat}

theorem frame_removeCell (h : Heap) (c : Cell) :
    Frame [c] h ((h.setPtr c none).removeCell c) := by
  refine ⟨rfl, fun _ hx => hx, fun c' _ he => ?_⟩
  rw [List.mem_singleton] at he
  exact Finset.mem_erase.trans (and_iff_right he)

theorem destruct_spec (hf : Releases limit n f) (hi : Inv limit D u h) (hn : h.liveCount < n)
    (hc : c ∈ h.cells) (hD : c ∉ D) (ho : ¬ h.Owned c) :
    ∃ h', h.destruct f c = .ok h' ∧ Inv limit D u h' ∧ Frame [c] h h' := by
  have hbegin := hi.beginDestruct hc hD ho
  unfold Heap.destruct
  cases hp : h.ptr c with
  | none =>
      rw [hp] at hbegin
      exact ⟨_, rfl, hbegin.removeCell ho, frame_removeCell h c⟩
  | some x =>
      rw [hp] at hbegin
      obtain ⟨h1, hrun, hi1, hframe⟩ := hf h _ u x hbegin hn
      refine ⟨_, by simp only [hrun]; rfl,
        hi1.removeCell fun ho1 => ho (ho1.of_live hframe.live), ?_⟩
      exact hframe.trans (frame_removeCell h1 c)

theorem destructAll_spec (hf : Releases limit n f) (cs : List Cell) (hi : Inv limit D u h)
    (hn : h.liveCount < n) (hnd : cs.Nodup)
    (hcs : ∀ c ∈ cs, c ∈ h.cells ∧ c ∉ D ∧ ¬ h.Owned c) :
    ∃ h', destructAll f cs h = .ok h' ∧ Inv limit D u h' ∧ Frame cs h h' := by
  induction cs generalizing h with
  | nil => exact ⟨h, rfl, hi, rfl, fun _ hx => hx, fun _ _ _ => Iff.rfl⟩
  | cons c cs ih =>
      obtain ⟨hnotin, hnd⟩ := List.nodup_cons.mp hnd
      obtain ⟨hc, hD, ho⟩ := hcs c List.mem_cons_self
      obtain ⟨h1, hrun, hi1, hframe⟩ := destruct_spec hf hi hn hc hD ho
      -- the other cells are still there
      have hcs1 : ∀ c' ∈ cs, c' ∈ h1.cells ∧ c' ∉ D ∧ ¬ h1.Owned c' := by
        intro c' hc'
        obtain ⟨hmem, hD', ho'⟩ := hcs c' (List.mem_cons_of_mem _ hc')
        have hne : c' ∉ [c] := by
          rw [List.mem_singleton]
          rintro rfl
          exact hnotin hc'
        exact ⟨(hframe.cells c' ho' hne).mpr hmem, hD', fun ho1 => ho' (ho1.of_live hframe.live)⟩
      obtain ⟨h2, hrun2, hi2, hframe2⟩ :=
        ih hi1 (Nat.lt_of_le_of_lt hframe.liveCount_le hn) hnd hcs1
      refine ⟨h2, ?_, hi2, hframe.trans hframe2⟩
      rw [destructAll, hrun]
      exact hrun2

theorem nodup_membersOf (h : Heap) (x : Nat) : (h.membersOf x).reverse.Nodup := by
  rw [List.nodup_reverse]
  refine List.Nodup.map (fun i j hij => ?_) List.nodup_range
  exact (Cell.member.inj hij).2

/-- **`unref` keeps the invariant**, whatever is going on around it, and does not call an object
that is deleted. -/
theorem unref_spec (hl : limit < 2 ^ 31) (depth : Nat) :
    Releases limit depth (Heap.unref depth) := by
  -- each deletion leaves fewer objects, so the depth never runs out
  induction depth with
  | zero => exact fun h D u x _ hn => absurd hn (Nat.not_lt_zero _)
  | succ depth ih =>
      intro h D u y hi hn
      have hy : h.Live y := hi.pending y List.mem_cons_self
      simp only [Heap.unref, if_pos hy, hi.decrement hl]
      by_cases hzero : h.holders D u y = 0
      · -- the last holder: the object is deleted
        rw [if_pos (by rw [hzero]; rfl)]
        set h1 := h.deleting y (h.holders D u y) with hh1
        have hlive : ∀ x, h1.Live x ↔ h.Live x ∧ x ≠ y := fun x => live_deleting _
        have hmem : h1.membersOf y = h.membersOf y := by
          simp only [Heap.membersOf, hh1, members_deleting]
        have hcells : ∀ c ∈ (h1.membersOf y).reverse, c ∈ h1.cells ∧ c ∉ D ∧ ¬ h1.Owned c := by
          intro c hc
          rw [List.mem_reverse, hmem] at hc
          have hin := hi.members y hy c hc
          obtain ⟨j, -, rfl⟩ := mem_membersOf.mp hc
          exact ⟨hin, fun hD => hi.dying _ hD hy, fun ho => ((hlive y).mp ho).2 rfl⟩
        obtain ⟨h2, hrun, hi2, hframe⟩ := destructAll_spec ih _ (hi.unref_last hzero _)
          (Nat.lt_of_lt_of_le (liveCount_deleting hy _) (Nat.le_of_lt_succ hn))
          (nodup_membersOf h1 y) hcells
        refine ⟨h2, hrun, hi2, hframe.next, fun x hx => ((hlive x).mp (hframe.live x hx)).1, ?_⟩
        intro c hc _
        refine hframe.cells c (fun ho => hc (ho.of_live fun x hx => ((hlive x).mp hx).1)) ?_
        rw [List.mem_reverse, hmem]
        intro hm
        obtain ⟨j, -, rfl⟩ := mem_membersOf.mp hm
        exact hc hy
      · rw [if_neg (by exact_mod_cast hzero)]
        exact ⟨_, rfl, hi.unref_held (Nat.pos_of_ne_zero hzero), rfl,
          fun x hx => (live_setCount _ _).mp hx, fun _ _ _ => Iff.rfl⟩

end Lunchbox.RefPtr
