import Lunchbox.Lib.Count
import Lunchbox.RefPtr.Program
import Lunchbox.RefPtr.Threads

set_option autoImplicit false

/-! # The invariants of reference counting by several threads

In the middle of operations the count of an object is the number of `RefPtr` whose reference is
counted, and of the calls of `unref` that threads are still to make. The count reaches 0 in one
`--_refCount` only, and the thread that made it deletes the object (`Ledger`). Every `RefPtr` is
destructed once (`Ends`). What the threads do with the `RefPtr` themselves is in `Cells`: it uses
that the program is free of races on them, and says that a thread which has copied a pointer and not
referenced the object yet copied it from a `RefPtr` that is still there.
-/

namespace Lunchbox.RefPtr.Threads

open Function StateMachine
open SpinLock (toInt32)

variable {ι : Type} [DecidableEq ι] [Fintype ι]

/-! ## What is left to do -/

/-- How often the threads still have an instruction to execute. -/
def pending (frames : ι → Frame) (i : Instr) : Nat := ∑ t, (frames t).stack.count i

@[simp] theorem settle_stack (f : Frame) : f.settle.stack = f.stack := by
  unfold Frame.settle
  split
  next h => rw [h]; rfl
  next => rfl

theorem pending_update (frames : ι → Frame) (t : ι) (f : Frame) (i : Instr) :
    pending (update frames t f.settle) i + (frames t).stack.count i
      = pending frames i + f.stack.count i := by
  rw [← settle_stack f]
  exact sum_update (fun f : Frame => f.stack.count i) frames t f.settle

omit [DecidableEq ι] in
theorem pending_pos_iff {frames : ι → Frame} {i : Instr} :
    0 < pending frames i ↔ ∃ t, i ∈ (frames t).stack := by
  simp [pending, Finset.sum_pos_iff, List.count_pos_iff]

omit [DecidableEq ι] in
theorem pending_pos {frames : ι → Frame} {i : Instr} {t : ι} (h : i ∈ (frames t).stack) :
    0 < pending frames i :=
  pending_pos_iff.mpr ⟨t, h⟩

omit [DecidableEq ι] in
theorem count_le_pending (frames : ι → Frame) (t : ι) (i : Instr) :
    (frames t).stack.count i ≤ pending frames i :=
  Finset.single_le_sum (f := fun t => (frames t).stack.count i) (fun _ _ => Nat.zero_le _)
    (Finset.mem_univ t)

/-! ## Counts -/

/-- Each object that exists has as many holders as its count says, and is being deleted exactly if
it has none. -/
structure Ledger (h : Heap) (holders deletes : Nat → Nat) : Prop where
  count : ∀ x, h.Live x → (h.objects x).refCount = holders x
  bound : ∀ x, holders x < 2 ^ 31
  alive : ∀ x, h.Live x → 0 < holders x ∧ deletes x = 0 ∨ holders x = 0 ∧ deletes x = 1
  dead : ∀ x, ¬ h.Live x → holders x = 0 ∧ deletes x = 0

section
variable {h h' : Heap} {holders holders' deletes deletes' : Nat → Nat} {y : Nat}

theorem Ledger.live_of_holder (hL : Ledger h holders deletes) (hy : 0 < holders y) : h.Live y := by
  by_contra hn
  have := (hL.dead y hn).1
  omega

theorem Ledger.live_of_delete (hL : Ledger h holders deletes) (hy : 0 < deletes y) :
    h.Live y ∧ holders y = 0 ∧ deletes y = 1 := by
  have hlive : h.Live y := by
    by_contra hn
    have := (hL.dead y hn).2
    omega
  exact ⟨hlive, (hL.alive y hlive).resolve_left (by omega)⟩

/-- Nothing changes for the objects. -/
theorem Ledger.congr (hL : Ledger h holders deletes) (hobj : h'.objects = h.objects)
    (hnext : h'.next = h.next) (hh : ∀ x, holders' x = holders x)
    (hd : ∀ x, deletes' x = deletes x) : Ledger h' holders' deletes' := by
  have hlive : ∀ x, h'.Live x ↔ h.Live x := by
    intro x
    rw [Heap.Live, Heap.Live, hobj, hnext]
  refine ⟨?_, fun x => (hh x).symm ▸ hL.bound x, ?_, ?_⟩
  · intro x hx
    rw [hobj, hh]
    exact hL.count x ((hlive x).mp hx)
  · intro x hx
    rw [hh, hd]
    exact hL.alive x ((hlive x).mp hx)
  · intro x hx
    rw [hh, hd]
    exact hL.dead x (mt (hlive x).mpr hx)

theorem Ledger.record (hL : Ledger h holders deletes) (e : Event) :
    Ledger (h.record e) holders deletes :=
  hL.congr rfl rfl (fun _ => rfl) fun _ => rfl

/-- A new object, with one reference. -/
theorem Ledger.create {n : Nat} (hL : Ledger h holders deletes)
    (hobj : h'.objects = update h.objects h.next ⟨1, n, false⟩) (hnext : h'.next = h.next + 1)
    (hh : ∀ x, holders' x = holders x + if x = h.next then 1 else 0)
    (hd : ∀ x, deletes' x = deletes x) : Ledger h' holders' deletes' := by
  have hdead := hL.dead h.next fun hl => Nat.lt_irrefl _ hl.1
  have hold : ∀ x, x ≠ h.next →
      holders' x = holders x ∧ h'.objects x = h.objects x ∧ (h'.Live x ↔ h.Live x) := by
    intro x hx
    have ho : h'.objects x = h.objects x := by rw [hobj, update_of_ne hx]
    refine ⟨by simp [hh, hx], ho, ?_⟩
    rw [Heap.Live, Heap.Live, ho, hnext]
    exact and_congr_left fun _ => by omega
  have hnew : holders' h.next = 1 := by simp [hh, hdead]
  refine ⟨?_, ?_, ?_, ?_⟩
  · intro x hl
    by_cases hx : x = h.next
    · rw [hx, hnew, hobj, update_self]
      rfl
    · obtain ⟨h1, h2, h3⟩ := hold x hx
      rw [h1, h2]
      exact hL.count x (h3.mp hl)
  · intro x
    by_cases hx : x = h.next
    · rw [hx, hnew]
      decide
    · rw [(hold x hx).1]
      exact hL.bound x
  · intro x hl
    rw [hd]
    by_cases hx : x = h.next
    · rw [hx, hnew, hdead.2]
      omega
    · obtain ⟨h1, -, h3⟩ := hold x hx
      rw [h1]
      exact hL.alive x (h3.mp hl)
  · intro x hl
    have hx : x ≠ h.next := by
      rintro rfl
      refine hl ⟨by omega, ?_⟩
      rw [hobj, update_self]
    obtain ⟨h1, -, h3⟩ := hold x hx
    rw [h1, hd]
    exact hL.dead x (mt h3.mpr hl)

/-- `++_refCount` -/
theorem Ledger.ref (hL : Ledger h holders deletes) (hy : 0 < holders y)
    (hroom : (h.objects y).refCount < 2 ^ 31 - 1)
    (hh : ∀ x, holders' x = holders x + if x = y then 1 else 0)
    (hd : ∀ x, deletes' x = deletes x) :
    Ledger (h.setCount y (toInt32 ((h.objects y).refCount + 1))) holders' deletes' := by
  have hlive := hL.live_of_holder hy
  have hcount := hL.count y hlive
  refine ⟨?_, ?_, ?_, ?_⟩
  · intro x hx
    rw [hh]
    by_cases hxy : x = y
    · subst hxy
      rw [SpinLock.toInt32_of_lt (by omega) (by omega)]
      simp [Heap.setCount, hcount]
    · simpa [Heap.setCount, hxy] using hL.count x ((live_setCount _ _).mp hx)
  · intro x
    have := hL.bound x
    rw [hh]
    split
    next hxy => subst hxy; omega
    next => omega
  · intro x hx
    have := hL.alive x ((live_setCount _ _).mp hx)
    rw [hh, hd]
    split
    next hxy => subst hxy; omega
    next => omega
  · intro x hx
    rw [live_setCount] at hx
    have := hL.dead x hx
    rw [hh, hd, if_neg (by rintro rfl; exact hx hlive)]
    exact this

/-- `--_refCount`; the last one has to delete the object. -/
theorem Ledger.unref (hL : Ledger h holders deletes) (hy : 0 < holders y)
    (hh : ∀ x, holders' x = holders x - if x = y then 1 else 0)
    (hd : ∀ x, deletes' x = deletes x
      + if x = y ∧ toInt32 ((h.objects y).refCount - 1) = 0 then 1 else 0) :
    Ledger (h.setCount y (toInt32 ((h.objects y).refCount - 1))) holders' deletes' := by
  have hlive := hL.live_of_holder hy
  have hcount := hL.count y hlive
  have hbound := hL.bound y
  have hint : toInt32 ((h.objects y).refCount - 1) = (h.objects y).refCount - 1 :=
    SpinLock.toInt32_of_lt (by omega) (by omega)
  rw [hint] at hd ⊢
  refine ⟨?_, ?_, ?_, ?_⟩
  · intro x hx
    have hhx := hh x
    by_cases hxy : x = y
    · subst hxy
      simp only [Heap.setCount, update_self, if_true] at hhx ⊢
      omega
    · rw [if_neg hxy, Nat.sub_zero] at hhx
      simpa [Heap.setCount, hxy, hhx] using hL.count x ((live_setCount _ _).mp hx)
  · intro x
    have := hL.bound x
    have := hh x
    omega
  · intro x hx
    have hax := hL.alive x ((live_setCount _ _).mp hx)
    have hhx := hh x
    have hdx := hd x
    by_cases hxy : x = y
    · subst hxy
      simp only [true_and, if_true] at hhx hdx
      split at hdx <;> omega
    · simp only [hxy, false_and, if_false, Nat.add_zero, Nat.sub_zero] at hhx hdx
      omega
  · intro x hx
    rw [live_setCount] at hx
    have hxy : x ≠ y := by rintro rfl; exact hx hlive
    have hhx := hh x
    have hdx := hd x
    have := hL.dead x hx
    simp only [hxy, false_and, if_false, Nat.add_zero, Nat.sub_zero] at hhx hdx
    omega

/-- `delete this` -/
theorem Ledger.delete (hL : Ledger h holders deletes) (hy : 0 < deletes y)
    (hh : ∀ x, holders' x = holders x)
    (hd : ∀ x, deletes' x = deletes x - if x = y then 1 else 0) :
    Ledger (h.setDeleted y) holders' deletes' := by
  obtain ⟨hlive, hhy, hdy⟩ := hL.live_of_delete hy
  refine ⟨?_, fun x => (hh x).symm ▸ hL.bound x, ?_, ?_⟩
  · intro x hx
    obtain ⟨hx, hxy⟩ := (live_setDeleted _).mp hx
    rw [hh]
    simpa [Heap.setDeleted, hxy] using hL.count x hx
  · intro x hx
    obtain ⟨hx, hxy⟩ := (live_setDeleted _).mp hx
    have hdx := hd x
    rw [if_neg hxy, Nat.sub_zero] at hdx
    rw [hh, hdx]
    exact hL.alive x hx
  · intro x hx
    rw [hh]
    have hdx := hd x
    by_cases hxy : x = y
    · subst hxy
      rw [if_pos rfl] at hdx
      omega
    · rw [if_neg hxy, Nat.sub_zero] at hdx
      rw [hdx]
      exact hL.dead x fun hlx => hx ((live_setDeleted _).mpr ⟨hlx, hxy⟩)
end

/-! ## The ends of `RefPtr` -/

/-- How often the destructor of a `RefPtr` has to be run or finished. -/
def State.ends (s : State ι) (c : Cell) : Nat :=
  pending s.frames (.destruct c) + pending s.frames (.clear c)

/-- A `RefPtr` is destructed once. The members of an object are there while it exists, and are being
destructed afterwards. -/
structure Ends (h : Heap) (ends : Cell → Nat) : Prop where
  once : ∀ c, ends c ≤ 1
  exist : ∀ c, 0 < ends c → c ∈ h.cells
  member : ∀ x j, .member x j ∈ h.cells →
    x < h.next ∧ .member x j ∈ h.membersOf x ∧ (h.Live x ∨ 0 < ends (.member x j))
  live : ∀ x j, h.Live x → ends (.member x j) = 0
  members : ∀ x, h.Live x → ∀ c ∈ h.membersOf x, c ∈ h.cells

section
variable {h h' : Heap} {ends ends' : Cell → Nat} {c : Cell} {x : Nat}

/-- At most new variables. -/
theorem Ends.congr (hE : Ends h ends) (hnext : h'.next = h.next)
    (hlive : ∀ x, h'.Live x ↔ h.Live x) (hmembers : ∀ x, h'.membersOf x = h.membersOf x)
    (hcells : h.cells ⊆ h'.cells) (hold : ∀ x j, .member x j ∈ h'.cells → .member x j ∈ h.cells)
    (he : ∀ c, ends' c = ends c) : Ends h' ends' := by
  refine ⟨fun c => (he c).symm ▸ hE.once c, ?_, ?_, ?_, ?_⟩
  · intro c hc
    rw [he] at hc
    exact hcells (hE.exist c hc)
  · intro x j hm
    rw [hnext, hmembers, hlive, he]
    exact hE.member x j (hold x j hm)
  · intro x j hx
    rw [he]
    exact hE.live x j ((hlive x).mp hx)
  · intro x hx c hc
    rw [hmembers] at hc
    exact hcells (hE.members x ((hlive x).mp hx) c hc)

theorem Ends.setCount (hE : Ends h ends) (n : Int) (e : Event) (he : ∀ c, ends' c = ends c) :
    Ends ((h.setCount x n).record e) ends' :=
  hE.congr rfl (fun _ => (live_record e).trans (live_setCount x n))
    (fun _ => membersOf_setCount x n _) (fun _ => id) (fun _ _ => id) he

/-- The end of a variable begins. -/
theorem Ends.destroy {k : Nat} (hE : Ends h ends) (hk : .root k ∈ h.cells)
    (h0 : ends (.root k) = 0) (he : ∀ c, ends' c = ends c + if c = .root k then 1 else 0) :
    Ends h ends' := by
  have hmember : ∀ x j, ends' (.member x j) = ends (.member x j) := fun x j => by simp [he]
  refine ⟨?_, ?_, ?_, ?_, hE.members⟩
  · intro c
    have := hE.once c
    rw [he]
    split
    next hc => subst hc; omega
    next => omega
  · intro c hc
    by_cases hck : c = .root k
    · exact hck ▸ hk
    · exact hE.exist c (by simpa [he, hck] using hc)
  · intro x j hm
    rw [hmember]
    exact hE.member x j hm
  · intro x j hx
    rw [hmember]
    exact hE.live x j hx

/-- The members of an object have to be destructed. -/
theorem Ends.delete (hE : Ends h ends) (hx : h.Live x)
    (he : ∀ c, ends' c = ends c + if c ∈ h.membersOf x then 1 else 0) :
    Ends ((h.setDeleted x).record (.delete x)) ends' := by
  have hlive : ∀ y, ((h.setDeleted x).record (.delete x)).Live y ↔ h.Live y ∧ y ≠ x :=
    fun y => (live_record _).trans (live_setDeleted x)
  have hmembers : ∀ y, ((h.setDeleted x).record (.delete x)).membersOf y = h.membersOf y := by
    intro y
    simp only [Heap.membersOf, Heap.record, members_setDeleted]
  have hother : ∀ y j, y ≠ x → ends' (.member y j) = ends (.member y j) := by
    intro y j hy
    have hm : .member y j ∉ h.membersOf x := by
      intro hm
      obtain ⟨i, -, hi⟩ := mem_membersOf.mp hm
      exact hy (Cell.member.inj hi).1.symm
    rw [he, if_neg hm, Nat.add_zero]
  refine ⟨?_, ?_, ?_, ?_, ?_⟩
  · intro c
    rw [he]
    split
    next hm =>
      obtain ⟨j, -, rfl⟩ := mem_membersOf.mp hm
      rw [hE.live x j hx]
    next => exact hE.once c
  · intro c hc
    by_cases hm : c ∈ h.membersOf x
    · exact hE.members x hx c hm
    · exact hE.exist c (by simpa [he, hm] using hc)
  · intro y j hm
    obtain ⟨hnext, hmem, hor⟩ := hE.member y j hm
    refine ⟨hnext, (hmembers y).symm ▸ hmem, ?_⟩
    by_cases hy : y = x
    · subst hy
      exact Or.inr (by rw [he, if_pos hmem]; omega)
    · rw [hother y j hy]
      exact hor.imp_left fun hl => (hlive y).mpr ⟨hl, hy⟩
  · intro y j hy
    obtain ⟨hl, hne⟩ := (hlive y).mp hy
    rw [hother y j hne]
    exact hE.live y j hl
  · intro y hy c hc
    exact hE.members y ((hlive y).mp hy).1 c (hmembers y ▸ hc)

/-- The end of a `RefPtr`. -/
theorem Ends.clear (hE : Ends h ends) (hc : 0 < ends c)
    (he : ∀ c', ends' c' = ends c' - if c' = c then 1 else 0) :
    Ends ((h.setPtr c none).removeCell c) ends' := by
  have hmem : ∀ c', c' ∈ ((h.setPtr c none).removeCell c).cells ↔ c' ≠ c ∧ c' ∈ h.cells :=
    fun c' => Finset.mem_erase
  have hother : ∀ c', c' ≠ c → ends' c' = ends c' := by
    intro c' hne
    simpa [hne] using he c'
  refine ⟨?_, ?_, ?_, ?_, ?_⟩
  · intro c'
    have := hE.once c'
    have := he c'
    omega
  · intro c' hc'
    have hne : c' ≠ c := by
      rintro rfl
      have := hE.once c'
      have := he c'
      rw [if_pos rfl] at this
      omega
    rw [hother c' hne] at hc'
    exact (hmem c').mpr ⟨hne, hE.exist c' hc'⟩
  · intro x j hm
    obtain ⟨hne, hm⟩ := (hmem _).mp hm
    rw [hother _ hne]
    exact hE.member x j hm
  · intro x j hx
    have hz : ends (.member x j) = 0 := hE.live x j hx
    have := he (.member x j)
    omega
  · intro x hx c' hc'
    refine (hmem c').mpr ⟨?_, hE.members x hx c' hc'⟩
    -- a member of an object that exists is not being destructed
    rintro rfl
    obtain ⟨j, -, rfl⟩ := mem_membersOf.mp hc'
    have hz : ends (.member x j) = 0 := hE.live x j hx
    omega

theorem Ends.create (hE : Ends h ends) (n : Nat) : Ends (h.create n) ends := by
  have hmem : ∀ c, c ∈ (h.create n).cells ↔
      c ∈ h.cells ∨ c ∈ (List.range n).map (Cell.member h.next) := by
    intro c
    rw [← List.mem_toFinset, ← Finset.mem_union]
    rfl
  have hold : ∀ x, x < h.next → (h.create n).membersOf x = h.membersOf x := by
    intro x hx
    rw [Heap.membersOf, show (h.create n).objects x = h.objects x from
      update_of_ne (Nat.ne_of_lt hx) _ _, Heap.membersOf]
  have hnew : (h.create n).membersOf h.next = (List.range n).map (Cell.member h.next) := by
    rw [Heap.membersOf, objects_create_self]
  refine ⟨hE.once, fun c hc => (hmem c).mpr (Or.inl (hE.exist c hc)), ?_, ?_, ?_⟩
  · intro x j hm
    rcases (hmem _).mp hm with hm | hm
    · obtain ⟨hnext, hmem, hor⟩ := hE.member x j hm
      refine ⟨Nat.lt_succ_of_lt hnext, (hold x hnext).symm ▸ hmem, ?_⟩
      exact hor.imp_left fun hl => (live_create n).mpr (Or.inl hl)
    · obtain ⟨i, hi, he⟩ := List.mem_map.mp hm
      obtain ⟨rfl, rfl⟩ := Cell.member.inj he
      exact ⟨Nat.lt_succ_self _, hnew.symm ▸ hm, Or.inl ((live_create n).mpr (Or.inr rfl))⟩
  · intro x j hx
    rcases (live_create n).mp hx with hx | rfl
    · exact hE.live x j hx
    · by_contra hpos
      have := (hE.member _ j (hE.exist _ (Nat.pos_of_ne_zero hpos))).1
      omega
  · intro x hx c hc
    rcases (live_create n).mp hx with hx | rfl
    · rw [hold x hx.1] at hc
      exact (hmem c).mpr (Or.inl (hE.members x hx c hc))
    · rw [hnew] at hc
      exact (hmem c).mpr (Or.inr hc)
end

/-! ## What a thread relies on -/

/-- The two phases of an operation. As long as a thread has copied a pointer and not referenced the
object yet, the object is held by the `RefPtr` it was copied from. Afterwards only releases and
destructors are left. -/
inductive Frame.Fits (h : Heap) (counted : Finset Cell) : Frame → Prop
  | copying {c d : Cell} {x : Nat} (old : Option Nat) (hc : c ∈ h.cells ∧ c ∉ counted)
      (hx : h.ptr c = some x) (hd : d ∈ h.cells ∧ d ∈ counted) (hdx : h.ptr d = some x) :
      Fits h counted ⟨some c, some d, .ref x :: (old.map .unref).toList⟩
  | running {target : Option Cell} {stack : List Instr}
      (htarget : ∀ c, target = some c → c ∈ h.cells) (hrefs : ∀ x, .ref x ∉ stack)
      (hclear : ∀ c, .clear c ∈ stack → c ∈ h.cells ∧ c ∉ counted)
      (hroot : ∀ k, .destruct (.root k) ∈ stack ∨ .clear (.root k) ∈ stack →
        target = some (.root k)) :
      Fits h counted ⟨target, none, stack⟩

/-- The thread has written the pointer and not referenced the object yet, or released the object and
not cleared the pointer yet. -/
def Frame.Opens (f : Frame) (c : Cell) : Prop :=
  (f.target = some c ∧ ∃ x rest, f.stack = .ref x :: rest) ∨ .clear c ∈ f.stack

section
variable {h h' : Heap} {counted counted' : Finset Cell} {f : Frame} {c : Cell} {x : Nat}
  {i : Instr} {rest : List Instr}

theorem Frame.Fits.idle : Frame.idle.Fits h counted := by
  refine .running ?_ ?_ ?_ ?_ <;> simp

theorem Frame.Fits.used (hf : f.Fits h counted) (hc : f.Uses c) : c ∈ h.cells := by
  cases hf with
  | copying old hc' _ hd _ =>
      rcases hc with (hc | hc) | hc
      · exact Option.some.inj hc ▸ hc'.1
      · simp at hc
      · exact Option.some.inj hc ▸ hd.1
  | running htarget _ hclear _ =>
      rcases hc with (hc | hc) | hc
      · exact htarget c hc
      · exact (hclear c hc).1
      · cases hc

theorem Frame.Fits.root {k : Nat} (hf : f.Fits h counted)
    (hk : .destruct (.root k) ∈ f.stack ∨ .clear (.root k) ∈ f.stack) :
    f.target = some (.root k) := by
  cases hf with
  | copying => simp at hk
  | running _ _ _ hroot => exact hroot k hk

/-- A thread does not notice what happens to the `RefPtr` it does not use. -/
theorem Frame.Fits.frame (hf : f.Fits h counted)
    (hsame : ∀ c, f.Uses c → c ∈ h'.cells ∧ (c ∈ counted' ↔ c ∈ counted) ∧ h'.ptr c = h.ptr c) :
    f.Fits h' counted' := by
  cases hf with
  | @copying c d x old hc hx hd hdx =>
      obtain ⟨hc', hcc, hcp⟩ := hsame c (Or.inl (Or.inl rfl))
      obtain ⟨hd', hdc, hdp⟩ := hsame d (Or.inr rfl)
      exact .copying old ⟨hc', mt hcc.mp hc.2⟩ (hcp.trans hx) ⟨hd', hdc.mpr hd.2⟩ (hdp.trans hdx)
  | running htarget hrefs hclear hroot =>
      refine .running (fun c hc => (hsame c (Or.inl (Or.inl hc))).1) hrefs ?_ hroot
      intro c hc
      obtain ⟨hc', hcc, -⟩ := hsame c (Or.inl (Or.inr hc))
      exact ⟨hc', mt hcc.mp (hclear c hc).2⟩

/-- A thread that is about to reference an object. -/
theorem Frame.Fits.copies (hf : f.Fits h counted) (hstack : f.stack = .ref x :: rest) :
    ∃ c d, f.target = some c ∧ f.source = some d ∧ (c ∈ h.cells ∧ c ∉ counted) ∧
      h.ptr c = some x ∧ (d ∈ h.cells ∧ d ∈ counted) ∧ h.ptr d = some x ∧
      ∃ old : Option Nat, rest = (old.map .unref).toList := by
  cases hf with
  | copying old hc hx hd hdx =>
      obtain ⟨he, hrest⟩ := List.cons.inj hstack
      cases Instr.ref.inj he
      exact ⟨_, _, rfl, rfl, hc, hx, hd, hdx, old, hrest.symm⟩
  | @running target stack _ hrefs _ _ =>
      have hstack : stack = .ref x :: rest := hstack
      exact absurd (hstack ▸ List.mem_cons_self) (hrefs x)

/-- The next instruction of a thread is replaced by others. -/
theorem Frame.Fits.replace (hf : f.Fits h counted) (hstack : f.stack = i :: rest)
    (hi : ∀ x, i ≠ .ref x) (hcells : h'.cells = h.cells) (hsub : counted' ⊆ counted)
    (new : List Instr) (hrefs : ∀ x, .ref x ∉ new)
    (hclear : ∀ c, .clear c ∈ new → c ∈ h.cells ∧ c ∉ counted')
    (hroot : ∀ k, .destruct (.root k) ∈ new ∨ .clear (.root k) ∈ new → .destruct (.root k) = i) :
    f.source = none ∧ { f with stack := new ++ rest }.Fits h' counted' := by
  cases hf with
  | copying => exact absurd (List.cons.inj hstack).1.symm (hi _)
  | @running target stack htarget hrefs' hclear' hroot' =>
      have hstack : stack = i :: rest := hstack
      subst hstack
      refine ⟨rfl, .running ?_ ?_ ?_ ?_⟩
      · exact fun c hc => hcells ▸ htarget c hc
      · intro x hx
        rcases List.mem_append.mp hx with hx | hx
        · exact hrefs x hx
        · exact hrefs' x (List.mem_cons_of_mem _ hx)
      · intro c hc
        rw [hcells]
        rcases List.mem_append.mp hc with hc | hc
        · exact hclear c hc
        · obtain ⟨hc, hn⟩ := hclear' c (List.mem_cons_of_mem _ hc)
          exact ⟨hc, fun hm => hn (hsub hm)⟩
      · intro k hk
        simp only [List.mem_append] at hk
        by_cases hnew : .destruct (.root k) ∈ new ∨ .clear (.root k) ∈ new
        · exact hroot' k (Or.inl (hroot k hnew ▸ List.mem_cons_self))
        · refine hroot' k (Or.imp (List.mem_cons_of_mem _) (List.mem_cons_of_mem _) ?_)
          tauto

/-- The end of the destructor of a `RefPtr`. -/
theorem Frame.Fits.clear (hf : f.Fits h counted) (hstack : f.stack = .clear c :: rest)
    (hrest : .destruct c ∉ rest ∧ .clear c ∉ rest) :
    f.source = none ∧ c ∉ counted ∧
      Frame.Fits ((h.setPtr c none).removeCell c) counted
        { f with target := if f.target = some c then none else f.target, stack := rest } := by
  cases hf with
  | copying => cases (List.cons.inj hstack).1
  | @running target stack htarget hrefs hclear hroot =>
      have hstack : stack = .clear c :: rest := hstack
      subst hstack
      have hmem : ∀ {c'}, c' ≠ c → c' ∈ h.cells → c' ∈ ((h.setPtr c none).removeCell c).cells :=
        fun hne hc => Finset.mem_erase.mpr ⟨hne, hc⟩
      refine ⟨rfl, (hclear c List.mem_cons_self).2, .running ?_ ?_ ?_ ?_⟩
      · intro c' hc'
        split at hc'
        next => cases hc'
        next hne => exact hmem (by rintro rfl; exact hne hc') (htarget c' hc')
      · exact fun x hx => hrefs x (List.mem_cons_of_mem _ hx)
      · intro c' hc'
        obtain ⟨hc, hn⟩ := hclear c' (List.mem_cons_of_mem _ hc')
        exact ⟨hmem (by rintro rfl; exact hrest.2 hc') hc, hn⟩
      · intro k hk
        have hne : Cell.root k ≠ c := by
          rintro rfl
          exact hk.elim hrest.1 hrest.2
        have htk := hroot k (hk.imp (List.mem_cons_of_mem _) (List.mem_cons_of_mem _))
        rw [if_neg]
        · exact htk
        · exact fun hc => hne (Option.some.inj (htk.symm.trans hc))

theorem Frame.Fits.settle (hf : f.Fits h counted) : f.settle.Fits h counted := by
  unfold Frame.settle
  split
  next => exact .idle
  next => exact hf

theorem uses_settle (hc : f.settle.Uses c) : f.Uses c := by
  unfold Frame.settle at hc
  split at hc
  next => simp [Frame.Uses, Frame.Writes, Frame.idle] at hc
  next => exact hc

theorem writes_settle (hc : f.settle.Writes c) : f.Writes c := by
  unfold Frame.settle at hc
  split at hc
  next => simp [Frame.Writes, Frame.idle] at hc
  next => exact hc

theorem opens_settle : f.settle.Opens c ↔ f.Opens c := by
  unfold Frame.settle
  split
  next hf => simp [Frame.Opens, Frame.idle, hf]
  next => exact Iff.rfl

theorem Frame.Opens.writes (hc : f.Opens c) : f.Writes c := hc.imp_left And.left

theorem not_opens_of_idle (hf : f.stack = []) : ¬ f.Opens c := by simp [Frame.Opens, hf]
end

/-! ## The `RefPtr` -/

/-- A `RefPtr` is counted except while a thread is in the middle of writing it, and no other thread
uses it then. -/
structure Cells (s : State ι) : Prop where
  counted : s.counted ⊆ s.heap.cells
  fits : ∀ t, (s.frames t).Fits s.heap s.counted
  opened : ∀ c ∈ s.heap.cells, s.heap.ptr c ≠ none → c ∉ s.counted → ∃ t, (s.frames t).Opens c
  exclusive : ∀ t u c, t ≠ u → (s.frames t).Writes c → ¬ (s.frames u).Uses c

section
variable {s : State ι} {t u : ι} {c d : Cell} {x : Nat} {h : Heap} {counted : Finset Cell}
  {f : Frame}

omit [DecidableEq ι] [Fintype ι] in
/-- A `RefPtr` that nobody is writing is counted, unless it is null. -/
theorem Cells.counted_of_unwritten (hC : Cells s) (hc : c ∈ s.heap.cells)
    (hw : ∀ u, ¬ (s.frames u).Opens c) (hp : s.heap.ptr c ≠ none) : c ∈ s.counted := by
  by_contra hn
  obtain ⟨u, hu⟩ := hC.opened c hc hp hn
  exact hw u hu

omit [Fintype ι] in
/-- **One step of a thread.** The other threads do not use what it changes, and what it writes from
now on no other thread uses. -/
theorem Cells.goto (hC : Cells s) (hsub : counted ⊆ h.cells)
    (hsame : ∀ u, u ≠ t → ∀ c, (s.frames u).Uses c →
      c ∈ h.cells ∧ (c ∈ counted ↔ c ∈ s.counted) ∧ h.ptr c = s.heap.ptr c)
    (hfits : f.Fits h counted)
    (hopen : ∀ c ∈ h.cells, h.ptr c ≠ none → c ∉ counted → f.Opens c ∨
      c ∈ s.heap.cells ∧ s.heap.ptr c ≠ none ∧ c ∉ s.counted ∧ ¬ (s.frames t).Opens c)
    (hwrites : ∀ c, f.Writes c → (s.frames t).Writes c ∨ s.Unused t c)
    (hsource : ∀ c, f.source = some c → (s.frames t).source = some c ∨ s.Readable t c) :
    Cells (s.goto t h counted f) := by
  refine ⟨hsub, ?_, ?_, ?_⟩
  · intro u
    by_cases hut : u = t
    · subst hut
      simpa [State.goto] using hfits.settle
    · simpa [State.goto, hut] using (hC.fits u).frame (hsame u hut)
  · intro c hc hp hn
    rcases hopen c hc hp hn with ho | ⟨hc', hp', hn', ho⟩
    · exact ⟨t, by simpa [State.goto] using opens_settle.mpr ho⟩
    · obtain ⟨u, hu⟩ := hC.opened c hc' hp' hn'
      have hne : u ≠ t := by
        rintro rfl
        exact ho hu
      exact ⟨u, by simpa [State.goto, hne] using hu⟩
  · intro u v c hne hw hu
    by_cases hut : u = t
    · subst hut
      simp only [State.goto, update_self, update_of_ne hne.symm] at hw hu
      rcases hwrites c (writes_settle hw) with hw | hun
      · exact hC.exclusive u v c hne hw hu
      · exact hun v hne.symm hu
    · by_cases hvt : v = t
      · subst hvt
        simp only [State.goto, update_self, update_of_ne hne] at hw hu
        rcases uses_settle hu with hu | hu
        · rcases hwrites c hu with hu | hun
          · exact hC.exclusive u v c hne hw (Or.inl hu)
          · exact hun u hne (Or.inl hw)
        · rcases hsource c hu with hu | hr
          · exact hC.exclusive u v c hne hw (Or.inr hu)
          · exact hr.2 u hne hw
      · simp only [State.goto, update_of_ne hut, update_of_ne hvt] at hw hu
        exact hC.exclusive u v c hne hw hu
end

end Lunchbox.RefPtr.Threads
