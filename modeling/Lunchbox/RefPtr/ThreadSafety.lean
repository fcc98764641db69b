import Lunchbox.RefPtr.ThreadInvariant

set_option autoImplicit false

/-! # Reference counting by several threads is exact

Each access of a thread keeps the invariants together (`Safe`), one lemma for each kind of access.
In a program without races on a `RefPtr`, no thread calls an object that was deleted, an object is
deleted once, and when all threads are done each object has exactly the count of its references.
-/

namespace Lunchbox.RefPtr.Threads

open Function StateMachine
open SpinLock (toInt32)

variable {ι : Type} [DecidableEq ι] [Fintype ι]

/-- The number of holders of an object: counted references, and calls of `unref` to come. -/
def State.holders (s : State ι) (x : Nat) : Nat :=
  pointers s.counted s.heap.ptr x + pending s.frames (.unref x)

structure Safe (s : State ι) : Prop where
  ledger : Ledger s.heap s.holders fun x => pending s.frames (.delete x)
  ends : Ends s.heap s.ends
  cells : Cells s
  log : LogInv s.heap
  born : ∀ x < s.heap.next, .ref x ∈ s.heap.log

section
variable {s : State ι} {t : ι} {c d : Cell} {x : Nat} {h : Heap} {counted : Finset Cell}
  {f : Frame} {rest : List Instr}

/-! ## What a step changes -/

theorem holders_goto {n : Nat}
    (hn : n + pointers s.counted s.heap.ptr x + (s.frames t).stack.count (.unref x)
      = s.holders x + pointers counted h.ptr x + f.stack.count (.unref x)) :
    (s.goto t h counted f).holders x = n := by
  have hg := pending_update s.frames t f (.unref x)
  have hl : (s.goto t h counted f).holders x
      = pointers counted h.ptr x + pending (update s.frames t f.settle) (.unref x) := rfl
  have hr : s.holders x = pointers s.counted s.heap.ptr x + pending s.frames (.unref x) := rfl
  omega

theorem holders_keep (hptr : h.ptr = s.heap.ptr) {n : Nat}
    (hn : n + (s.frames t).stack.count (.unref x) = s.holders x + f.stack.count (.unref x)) :
    (s.goto t h s.counted f).holders x = n := by
  refine holders_goto ?_
  rw [hptr]
  omega

theorem ends_goto {n : Nat}
    (hn : n + ((s.frames t).stack.count (.destruct c) + (s.frames t).stack.count (.clear c))
      = s.ends c + (f.stack.count (.destruct c) + f.stack.count (.clear c))) :
    (s.goto t h counted f).ends c = n := by
  have hd := pending_update s.frames t f (.destruct c)
  have hc := pending_update s.frames t f (.clear c)
  have hl : (s.goto t h counted f).ends c = pending (update s.frames t f.settle) (.destruct c)
      + pending (update s.frames t f.settle) (.clear c) := rfl
  have hr : s.ends c = pending s.frames (.destruct c) + pending s.frames (.clear c) := rfl
  omega

theorem deletes_goto {n : Nat}
    (hn : n + (s.frames t).stack.count (.delete x)
      = pending s.frames (.delete x) + f.stack.count (.delete x)) :
    pending (s.goto t h counted f).frames (.delete x) = n := by
  have hg := pending_update s.frames t f (.delete x)
  exact Nat.add_right_cancel (hg.trans hn.symm)

theorem count_unrefs (p : Option Nat) (x : Nat) :
    (p.map Instr.unref).toList.count (.unref x) = if p = some x then 1 else 0 := by
  cases p with
  | none => rfl
  | some y => simp [List.count_singleton]

theorem count_refs (p : Option Nat) {i : Instr} (hi : ∀ x, i ≠ .ref x) :
    (p.map Instr.ref).toList.count i = 0 := by
  cases p with
  | none => rfl
  | some y => simpa [List.count_singleton] using (hi y).symm

theorem count_unrefs_other (p : Option Nat) {i : Instr} (hi : ∀ x, i ≠ .unref x) :
    (p.map Instr.unref).toList.count i = 0 := by
  cases p with
  | none => rfl
  | some y => simpa [List.count_singleton] using (hi y).symm

omit [DecidableEq ι] in
/-- The holder that a thread is about to release. -/
theorem holder_of_unref (ht : .unref x ∈ (s.frames t).stack) : 0 < s.holders x :=
  Nat.add_pos_right _ (pending_pos ht)

omit [DecidableEq ι] in
theorem holder_of_counted (hd : d ∈ s.counted) (hp : s.heap.ptr d = some x) :
    0 < s.holders x :=
  Nat.add_pos_left (Finset.card_pos.mpr ⟨d, Finset.mem_filter.mpr ⟨hd, hp⟩⟩) _

omit [Fintype ι] in
/-- A step that changes no `RefPtr`. -/
theorem Cells.replace {i : Instr} {new : List Instr} (hC : Cells s)
    (ht : (s.frames t).stack = i :: rest) (hcells : h.cells = s.heap.cells)
    (hptr : h.ptr = s.heap.ptr) (hi : (∀ x, i ≠ .ref x) ∧ ∀ c, i ≠ .clear c)
    (hnew : ∀ j ∈ new, (∀ x, j ≠ .ref x) ∧ (∀ c, j ≠ .clear c) ∧ ∀ k, j ≠ .destruct (.root k)) :
    Cells (s.goto t h s.counted { s.frames t with stack := new ++ rest }) := by
  have hclear : ∀ c, .clear c ∉ new := fun c hc => (hnew _ hc).2.1 c rfl
  obtain ⟨hsource, hfits⟩ := (hC.fits t).replace ht hi.1 hcells (Finset.Subset.refl _) new
    (fun x hx => (hnew _ hx).1 x rfl) (fun c hc => absurd hc (hclear c))
    (fun k hk => hk.elim (fun hk => absurd rfl ((hnew _ hk).2.2 k)) fun hk => absurd hk (hclear _))
  have hmem : ∀ c, .clear c ∈ new ++ rest ↔ .clear c ∈ (s.frames t).stack := by
    intro c
    simp [ht, hclear c, (hi.2 c).symm]
  refine hC.goto (hcells ▸ hC.counted) ?_ hfits ?_ ?_ (by simp [hsource])
  · intro u _ c hu
    exact ⟨hcells ▸ (hC.fits u).used hu, Iff.rfl, congrFun hptr c⟩
  · intro c hc hp hn
    refine or_iff_not_imp_left.mpr fun ho => ⟨hcells ▸ hc, hptr ▸ hp, hn, ?_⟩
    rintro (⟨-, x, rest', hx⟩ | hc)
    · exact hi.1 x (List.cons.inj (ht.symm.trans hx)).1
    · exact ho (Or.inr ((hmem c).mpr hc))
  · intro c hc
    exact Or.inl (hc.imp_right (hmem c).mp)

/-! ## The accesses -/

theorem exec_unref (hS : Safe s) (ht : (s.frames t).stack = .unref x :: rest) :
    ∃ s', s.exec t (s.frames t) (.unref x) rest = (.ok, s') ∧ Safe s' := by
  have hpos : 0 < s.holders x := holder_of_unref (t := t) (ht ▸ List.mem_cons_self)
  have hlive := hS.ledger.live_of_holder hpos
  refine ⟨_, if_pos hlive, ?_, ?_, ?_,
    (hS.log.setCount x _).record ((live_setCount x _).mpr hlive) (by simp), ?_⟩
  · refine (hS.ledger.unref hpos (fun y => holders_keep rfl ?_) (fun y => deletes_goto ?_)).record _
    · have hle : (if y = x then 1 else 0) ≤ s.holders y := by split <;> grind
      rw [ht]
      grind
    · rw [ht]
      grind
  · refine hS.ends.setCount _ _ fun c => ends_goto ?_
    rw [ht]
    grind
  · exact hS.cells.replace ht rfl rfl (by simp) (by grind)
  · exact fun y hy => List.mem_append_left _ (hS.born y hy)

theorem exec_delete (hS : Safe s) (ht : (s.frames t).stack = .delete x :: rest) :
    ∃ s', s.exec t (s.frames t) (.delete x) rest = (.ok, s') ∧ Safe s' := by
  have hpos : 0 < pending s.frames (.delete x) := pending_pos (t := t) (ht ▸ List.mem_cons_self)
  obtain ⟨hlive, -, -⟩ := hS.ledger.live_of_delete hpos
  have hcount : ∀ i, (∀ c, i ≠ .destruct c) →
      ((s.heap.membersOf x).reverse.map Instr.destruct).count i = 0 := by
    intro i hi
    refine List.count_eq_zero.mpr fun hm => ?_
    obtain ⟨c, -, rfl⟩ := List.mem_map.mp hm
    exact hi c rfl
  have hmembers : ∀ c, ((s.heap.membersOf x).reverse.map Instr.destruct).count (.destruct c)
      = if c ∈ s.heap.membersOf x then 1 else 0 := by
    intro c
    rw [List.count_map_of_injective _ _ fun _ _ => Instr.destruct.inj,
      (nodup_membersOf s.heap x).count]
    simp
  refine ⟨_, rfl, ?_, ?_, ?_, hS.log.delete hlive (hS.born x hlive.1), ?_⟩
  · refine (hS.ledger.delete hpos (fun y => holders_keep rfl ?_) fun y => deletes_goto ?_).record _
    · rw [ht, List.count_append, hcount _ (by simp)]
      grind
    · have hle : (if y = x then 1 else 0) ≤ pending s.frames (.delete y) := by split <;> grind
      rw [ht, List.count_append, hcount _ (by simp)]
      grind
  · refine hS.ends.delete hlive fun c => ends_goto ?_
    rw [ht, List.count_append, List.count_append, hmembers, hcount _ (by simp)]
    grind
  · refine hS.cells.replace ht rfl rfl (by simp) ?_
    simp [Heap.membersOf]
  · exact fun y hy => List.mem_append_left _ (hS.born y hy)

theorem exec_ref (hS : Safe s) (ht : (s.frames t).stack = .ref x :: rest)
    (hroom : (s.heap.objects x).refCount < 2 ^ 31 - 1) :
    ∃ s', s.exec t (s.frames t) (.ref x) rest = (.ok, s') ∧ Safe s' := by
  obtain ⟨c, d, htarget, -, ⟨hc, hcc⟩, hx, ⟨-, hd⟩, hdx, old, rfl⟩ := (hS.cells.fits t).copies ht
  have hpos := holder_of_counted hd hdx
  have hlive := hS.ledger.live_of_holder hpos
  have hclear : ∀ c', .clear c' ∉ (old.map Instr.unref).toList := by simp
  have hcounted : s.counted ∪ (s.frames t).target.toFinset = insert c s.counted := by
    rw [htarget, Option.toFinset_some, Finset.union_comm, Finset.insert_eq]
  refine ⟨_, if_pos hlive, ?_, ?_, ?_,
    (hS.log.setCount x _).record ((live_setCount x _).mpr hlive) (by simp), ?_⟩
  · refine (hS.ledger.ref hpos hroom (fun y => holders_goto ?_) fun y => deletes_goto ?_).record _
    · have herase := pointers_erase s.heap.ptr (Finset.mem_insert_self c s.counted) y
      rw [Finset.erase_insert hcc, hx] at herase
      rw [hcounted, ht]
      simp only [Heap.record, Heap.setCount] at herase ⊢
      grind
    · rw [ht]
      grind
  · refine hS.ends.setCount _ _ fun c => ends_goto ?_
    rw [ht]
    grind
  · rw [hcounted]
    refine hS.cells.goto ?_ ?_ ?_ ?_ ?_ (by simp)
    · exact Finset.insert_subset hc hS.cells.counted
    · intro u hu c' hc'
      have hne : c' ≠ c := by
        rintro rfl
        exact hS.cells.exclusive t u c' hu.symm (Or.inl htarget) hc'
      exact ⟨(hS.cells.fits u).used hc', by simp [hne], rfl⟩
    · refine .running ?_ (by simp) (fun c' hc' => absurd hc' (hclear c')) (by simp)
      intro c' hc'
      exact Option.some.inj (htarget.symm.trans hc') ▸ hc
    · intro c' hc' hp hn
      rw [Finset.mem_insert, not_or] at hn
      refine Or.inr ⟨hc', hp, hn.2, ?_⟩
      rintro (⟨hc', -⟩ | hc')
      · exact hn.1 (Option.some.inj (htarget.symm.trans hc')).symm
      · simp [ht] at hc'
    · exact fun c' hc' => Or.inl (Or.inl (hc'.resolve_right (hclear c')))
  · exact fun y hy => List.mem_append_left _ (hS.born y hy)

omit [DecidableEq ι] [Fintype ι] in
/-- The reference of a `RefPtr` that nobody is writing is counted. -/
theorem Cells.release (hC : Cells s) (hc : c ∈ s.heap.cells) (hw : ∀ u, ¬ (s.frames u).Opens c)
    (x : Nat) : pointers s.counted s.heap.ptr x
      = pointers (s.counted.erase c) s.heap.ptr x + if s.heap.ptr c = some x then 1 else 0 := by
  by_cases hcc : c ∈ s.counted
  · exact pointers_erase s.heap.ptr hcc x
  · have hp : s.heap.ptr c = none := by
      by_contra hp
      exact hcc (hC.counted_of_unwritten hc hw hp)
    simp [hp, Finset.erase_eq_of_notMem hcc]

theorem exec_destruct (hS : Safe s) (ht : (s.frames t).stack = .destruct c :: rest)
    (hun : s.Unused t c) :
    ∃ s', s.exec t (s.frames t) (.destruct c) rest = (.ok, s') ∧ Safe s' := by
  have hone := hS.ends.once c
  have hd := count_le_pending s.frames t (.destruct c)
  have hcl := count_le_pending s.frames t (.clear c)
  rw [ht, List.count_cons_self] at hd
  have hends : s.ends c = pending s.frames (.destruct c) + pending s.frames (.clear c) := rfl
  have hc : c ∈ s.heap.cells := hS.ends.exist c (by omega)
  have hopens : ∀ u, ¬ (s.frames u).Opens c := by
    intro u hu
    by_cases hut : u = t
    · subst hut
      rcases hu with ⟨-, x, rest', hx⟩ | hu
      · simp [ht] at hx
      · have := List.count_pos_iff.mpr hu
        omega
    · exact hun u hut (Or.inl hu.writes)
  have hstack : ((s.heap.ptr c).map Instr.unref).toList ++ .clear c :: rest
      = (((s.heap.ptr c).map Instr.unref).toList ++ [.clear c]) ++ rest := by simp
  obtain ⟨hsource, hfits⟩ := (hS.cells.fits t).replace ht (by simp) (Eq.refl s.heap.cells)
    (Finset.erase_subset c s.counted) (((s.heap.ptr c).map Instr.unref).toList ++ [.clear c])
    (by simp) (by simp [hc]) (by simp)
  refine ⟨_, rfl, ?_, ?_, ?_, hS.log, hS.born⟩
  · refine hS.ledger.congr rfl rfl (fun x => holders_goto ?_) fun x => deletes_goto ?_
    · have hrel := hS.cells.release hc hopens x
      rw [ht, List.count_append, count_unrefs]
      grind
    · rw [ht, List.count_append, count_unrefs_other _ (by simp)]
      grind
  · refine hS.ends.congr rfl (fun _ => Iff.rfl) (fun _ => rfl) (fun _ => id) (fun _ _ => id)
      fun c' => ends_goto ?_
    rw [ht, List.count_append, List.count_append, count_unrefs_other _ (by simp),
      count_unrefs_other _ (by simp)]
    grind
  · rw [hstack]
    refine hS.cells.goto ?_ ?_ hfits ?_ ?_ (by simp [hsource])
    · exact (Finset.erase_subset _ _).trans hS.cells.counted
    · intro u hu c' hc'
      have hne : c' ≠ c := by
        rintro rfl
        exact hun u hu hc'
      exact ⟨(hS.cells.fits u).used hc', by simp [hne], rfl⟩
    · intro c' hc' hp hn
      by_cases hcc : c' = c
      · exact Or.inl (Or.inr (by simp [hcc]))
      · refine or_iff_not_imp_left.mpr fun ho => ⟨hc', hp, ?_, ?_⟩
        · exact fun hm => hn (Finset.mem_erase.mpr ⟨hcc, hm⟩)
        · rintro (⟨-, x, rest', hx⟩ | hm)
          · simp [ht] at hx
          · exact ho (Or.inr (by simpa [ht] using Or.inr hm))
    · rintro c' (hc' | hc')
      · exact Or.inl (Or.inl hc')
      · simp only [List.mem_append, List.mem_singleton, Instr.clear.injEq] at hc'
        rcases hc' with (hc' | rfl) | hc'
        · simp at hc'
        · exact Or.inr hun
        · exact Or.inl (Or.inr (ht ▸ List.mem_cons_of_mem _ hc'))

theorem exec_clear (hS : Safe s) (ht : (s.frames t).stack = .clear c :: rest)
    (hun : s.Unused t c) :
    ∃ s', s.exec t (s.frames t) (.clear c) rest = (.ok, s') ∧ Safe s' := by
  have hone := hS.ends.once c
  have hd := count_le_pending s.frames t (.destruct c)
  have hcl := count_le_pending s.frames t (.clear c)
  rw [ht, List.count_cons_self] at hcl
  rw [ht] at hd
  have hends : s.ends c = pending s.frames (.destruct c) + pending s.frames (.clear c) := rfl
  have hrest : .destruct c ∉ rest ∧ .clear c ∉ rest := by
    rw [← List.count_eq_zero, ← List.count_eq_zero]
    rw [List.count_cons_of_ne (by simp)] at hd
    omega
  have hne : ∀ u, u ≠ t → ∀ c', (s.frames u).Uses c' → c' ≠ c := by
    rintro u hu c' hc' rfl
    exact hun u hu hc'
  obtain ⟨hsource, hcc, hfits⟩ := (hS.cells.fits t).clear ht hrest
  have hptr : ∀ c', c' ≠ c → (s.heap.setPtr c none).ptr c' = s.heap.ptr c' :=
    fun c' hc' => update_of_ne hc' _ _
  refine ⟨_, rfl, ?_, ?_, ?_, ⟨hS.log.known, hS.log.deleted, hS.log.referenced, hS.log.ordered⟩,
    hS.born⟩
  · refine hS.ledger.congr rfl rfl (fun x => holders_goto ?_) fun x => deletes_goto ?_
    · have hp : pointers s.counted (s.heap.setPtr c none).ptr x
          = pointers s.counted s.heap.ptr x :=
        pointers_congr (fun c' hc' => hptr c' (by rintro rfl; exact hcc hc')) x
      rw [ht]
      simp only [Heap.removeCell]
      grind
    · rw [ht]
      grind
  · refine hS.ends.clear (by omega) fun c' => ends_goto ?_
    rw [ht]
    grind
  · refine hS.cells.goto ?_ ?_ hfits ?_ ?_ (by simp [hsource])
    · intro c' hc'
      exact Finset.mem_erase.mpr ⟨by rintro rfl; exact hcc hc', hS.cells.counted hc'⟩
    · intro u hu c' hc'
      exact ⟨Finset.mem_erase.mpr ⟨hne u hu c' hc', (hS.cells.fits u).used hc'⟩, Iff.rfl,
        hptr c' (hne u hu c' hc')⟩
    · intro c' hc' hp hn
      obtain ⟨hcne, hc'⟩ := Finset.mem_erase.mp hc'
      refine or_iff_not_imp_left.mpr fun ho => ⟨hc', hptr c' hcne ▸ hp, hn, ?_⟩
      rintro (⟨-, x, rest', hx⟩ | hm)
      · simp [ht] at hx
      · exact ho (Or.inr (by simpa [ht, hcne] using hm))
    · rintro c' (hc' | hc')
      · refine Or.inl (Or.inl ?_)
        by_contra hn
        split at hc'
        next => cases hc'
        next => exact hn hc'
      · exact Or.inl (Or.inr (ht ▸ List.mem_cons_of_mem _ hc'))

/-! ## The operations -/

omit [Fintype ι] in
/-- A thread that reads a `RefPtr` finds it counted, unless it is null. -/
theorem Cells.counted_of_readable (hC : Cells s) (hidle : (s.frames t).stack = [])
    (hr : s.Readable t d) (hp : s.heap.ptr d ≠ none) : d ∈ s.counted := by
  refine hC.counted_of_unwritten hr.1 (fun u hu => ?_) hp
  by_cases hut : u = t
  · exact not_opens_of_idle (hut ▸ hidle) hu
  · exact hr.2 u hut hu.writes

/-- A pointer is stored in a `RefPtr` whose old reference is handed over to the thread. -/
theorem Safe.store {p old : Option Nat} (src : Option Cell) (hS : Safe s)
    (hidle : (s.frames t).stack = [])
    (hc : c ∈ s.heap.cells ∨ ∃ k, c = .root k) (hun : s.Unused t c)
    (hrel : ∀ x, pointers s.counted s.heap.ptr x
      = pointers (s.counted.erase c) s.heap.ptr x + if old = some x then 1 else 0)
    (hsrc : ∀ x, p = some x →
      ∃ d, src = some d ∧ d ≠ c ∧ s.Readable t d ∧ s.heap.ptr d = some x) :
    Safe (s.store t (s.heap.addCell c) c p old src) := by
  have hptr : ∀ c', c' ≠ c → ((s.heap.addCell c).setPtr c p).ptr c' = s.heap.ptr c' :=
    fun c' hc' => update_of_ne hc' _ _
  have hcell : ∀ c', c' ∈ ((s.heap.addCell c).setPtr c p).cells ↔ c' = c ∨ c' ∈ s.heap.cells :=
    fun c' => Finset.mem_insert
  refine ⟨?_, ?_, ?_, ⟨hS.log.known, hS.log.deleted, hS.log.referenced, hS.log.ordered⟩, hS.born⟩
  · refine hS.ledger.congr rfl rfl (fun x => holders_goto ?_) fun x => deletes_goto ?_
    · have hp : pointers (s.counted.erase c) ((s.heap.addCell c).setPtr c p).ptr x
          = pointers (s.counted.erase c) s.heap.ptr x :=
        pointers_congr (fun c' hc' => hptr c' (Finset.ne_of_mem_erase hc')) x
      rw [hidle, hp, List.count_append, count_unrefs, count_refs _ (by simp), hrel x]
      simp
      omega
    · rw [hidle, List.count_append, count_refs _ (by simp), count_unrefs_other _ (by simp)]
      simp
  · refine hS.ends.congr rfl (fun _ => Iff.rfl) (fun _ => rfl) (Finset.subset_insert c _) ?_
      fun c' => ends_goto ?_
    · intro x j hm
      rcases (hcell _).mp hm with rfl | hm
      · exact hc.resolve_right (by simp)
      · exact hm
    · simp only [hidle, List.count_append, List.count_nil]
      rw [count_refs _ (by simp), count_refs _ (by simp), count_unrefs_other _ (by simp),
        count_unrefs_other _ (by simp)]
  · refine hS.cells.goto ?_ ?_ ?_ ?_ ?_ ?_
    · exact (Finset.erase_subset _ _).trans (hS.cells.counted.trans (Finset.subset_insert c _))
    · intro u hu c' hc'
      have hne : c' ≠ c := by
        rintro rfl
        exact hun u hu hc'
      exact ⟨(hcell c').mpr (Or.inr ((hS.cells.fits u).used hc')), by simp [hne], hptr c' hne⟩
    · have hcm : c ∈ ((s.heap.addCell c).setPtr c p).cells := (hcell c).mpr (Or.inl rfl)
      cases p with
      | none => exact .running (by simpa using hcm) (by simp) (by simp) (by simp)
      | some x =>
          obtain ⟨d, rfl, hne, hr, hd⟩ := hsrc x rfl
          have hdc := hS.cells.counted_of_readable hidle hr (by simp [hd])
          exact .copying old ⟨hcm, Finset.notMem_erase c _⟩ (update_self _ _ _)
            ⟨(hcell d).mpr (Or.inr hr.1), Finset.mem_erase.mpr ⟨hne, hdc⟩⟩ ((hptr d hne).trans hd)
    · intro c' hc' hp hn
      by_cases hcc : c' = c
      · subst hcc
        rw [show ((s.heap.addCell c').setPtr c' p).ptr c' = p from update_self _ _ _] at hp
        obtain ⟨x, rfl⟩ := Option.ne_none_iff_exists'.mp hp
        exact Or.inl (Or.inl ⟨rfl, x, _, rfl⟩)
      · refine Or.inr ⟨((hcell c').mp hc').resolve_left hcc, hptr c' hcc ▸ hp, ?_,
          not_opens_of_idle hidle⟩
        exact fun hm => hn (Finset.mem_erase.mpr ⟨hcc, hm⟩)
    · rintro c' (hc' | hc')
      · exact Or.inr (Option.some.inj hc' ▸ hun)
      · simp at hc'
    · intro d hd
      obtain ⟨x, rfl, hd⟩ := Option.bind_eq_some_iff.mp hd
      obtain ⟨d', rfl, -, hr, -⟩ := hsrc x rfl
      exact Or.inr (Option.some.inj hd ▸ hr)

theorem Safe.destroy {k : Nat} (hS : Safe s) (hidle : (s.frames t).stack = [])
    (hk : .root k ∈ s.heap.cells) (hun : s.Unused t (.root k)) :
    Safe (s.goto t s.heap s.counted ⟨some (.root k), none, [.destruct (.root k)]⟩) := by
  have hends : s.ends (.root k) = 0 := by
    -- a thread that is destructing the variable uses it
    have hno : ∀ u, ¬ (.destruct (.root k) ∈ (s.frames u).stack ∨
        .clear (.root k) ∈ (s.frames u).stack) := by
      intro u hu
      by_cases hut : u = t
      · simp [hut, hidle] at hu
      · exact hun u hut (Or.inl (Or.inl ((hS.cells.fits u).root hu)))
    by_contra hpos
    have hor : 0 < pending s.frames (.destruct (.root k)) ∨
        0 < pending s.frames (.clear (.root k)) := by
      unfold State.ends at hpos
      omega
    rcases hor with hpos | hpos
    · obtain ⟨u, hu⟩ := pending_pos_iff.mp hpos
      exact hno u (Or.inl hu)
    · obtain ⟨u, hu⟩ := pending_pos_iff.mp hpos
      exact hno u (Or.inr hu)
  refine ⟨?_, ?_, ?_, hS.log, hS.born⟩
  · refine hS.ledger.congr rfl rfl (fun x => holders_keep rfl ?_) fun x => deletes_goto ?_
    · simp [hidle]
    · simp [hidle]
  · refine hS.ends.destroy hk hends fun c => ends_goto ?_
    simp only [hidle, List.count_nil]
    grind
  · refine hS.cells.goto hS.cells.counted ?_ ?_ ?_ ?_ (by simp)
    · exact fun u _ c hc => ⟨(hS.cells.fits u).used hc, Iff.rfl, rfl⟩
    · exact .running (by simpa using hk) (by simp) (by simp) (by simp)
    · exact fun c hc hp hn => Or.inr ⟨hc, hp, hn, not_opens_of_idle hidle⟩
    · rintro c (hc | hc)
      · exact Or.inr (Option.some.inj hc ▸ hun)
      · simp at hc

theorem Safe.create {k n : Nat} (hS : Safe s) (hidle : (s.frames t).stack = [])
    (hk : .root k ∉ s.heap.cells) : Safe (s.start (.create t k n)) := by
  have hnew : ∀ c ∈ s.heap.cells,
      c ≠ .root k ∧ c ∉ (List.range n).map (Cell.member s.heap.next) := by
    intro c hc
    refine ⟨by rintro rfl; exact hk hc, fun hm => ?_⟩
    obtain ⟨j, -, rfl⟩ := List.mem_map.mp hm
    exact Nat.lt_irrefl _ (hS.ends.member _ j hc).1
  have hptr : ∀ c ∈ s.heap.cells,
      (((s.heap.create n).addCell (.root k)).setPtr (.root k) (some s.heap.next)).ptr c
        = s.heap.ptr c := by
    intro c hc
    obtain ⟨hroot, hmem⟩ := hnew c hc
    exact (update_of_ne hroot _ _).trans (if_neg hmem)
  have hcell : ∀ c, c ∈ ((s.heap.create n).addCell (.root k)).cells ↔ c = .root k ∨
      c ∈ s.heap.cells ∨ c ∈ (List.range n).map (Cell.member s.heap.next) := by
    intro c
    rw [Heap.addCell, Finset.mem_insert, Heap.create, Finset.mem_union, List.mem_toFinset]
  have hcounted : .root k ∉ s.counted := fun hm => hk (hS.cells.counted hm)
  have hlog : LogInv (((s.heap.create n).addCell (.root k)).setPtr (.root k)
      (some s.heap.next)) :=
    have hl := hS.log.create n
    ⟨hl.known, hl.deleted, hl.referenced, hl.ordered⟩
  refine ⟨?_, ?_, ?_, (hlog.setCount _ 1).record ?_ (by simp), ?_⟩
  · refine hS.ledger.create (n := n) ?_ rfl (fun x => holders_goto ?_) fun x => deletes_goto ?_
    · simp [State.start, State.goto, Heap.record, Heap.setCount, Heap.setPtr, Heap.addCell,
        Heap.create]
    · have hold : pointers s.counted (s.heap.create n).ptr x = pointers s.counted s.heap.ptr x :=
        pointers_congr (fun c hc => if_neg (hnew c (hS.cells.counted hc)).2) x
      have hins := pointers_insert (s.heap.create n).ptr hcounted (some s.heap.next) x
      rw [hold] at hins
      simp only [Heap.record, Heap.setCount, Heap.setPtr, Heap.addCell, hidle, Frame.idle] at hins ⊢
      grind
    · simp [hidle, Frame.idle]
  · refine (hS.ends.create n).congr rfl (fun x => ?_) (fun x => ?_) ?_ ?_ fun c => ends_goto ?_
    · exact (live_record _).trans (live_setCount _ _)
    · exact membersOf_setCount _ _ _
    · exact Finset.subset_insert _ _
    · exact fun x j hm => (Finset.mem_insert.mp hm).resolve_left (by simp)
    · simp [hidle, Frame.idle]
  · refine hS.cells.goto ?_ ?_ .idle ?_ ?_ ?_
    · intro c hc
      rcases Finset.mem_insert.mp hc with rfl | hc
      · exact (hcell _).mpr (Or.inl rfl)
      · exact (hcell _).mpr (Or.inr (Or.inl (hS.cells.counted hc)))
    · intro u _ c hu
      have hc := (hS.cells.fits u).used hu
      exact ⟨(hcell c).mpr (Or.inr (Or.inl hc)), by simp [(hnew c hc).1], hptr c hc⟩
    · intro c hc hp hn
      rw [Finset.mem_insert, not_or] at hn
      rcases (hcell c).mp hc with hc | hc | hc
      · exact absurd hc hn.1
      · exact Or.inr ⟨hc, hptr c hc ▸ hp, hn.2, not_opens_of_idle hidle⟩
      · exact absurd ((update_of_ne hn.1 _ _).trans (if_pos hc)) hp
    · simp [Frame.Writes, Frame.idle]
    · simp [Frame.idle]
  · exact (live_setCount _ _).mpr ((live_create n).mpr (Or.inr rfl))
  · intro x hx
    rcases Nat.lt_succ_iff_lt_or_eq.mp hx with hx | rfl
    · exact List.mem_append_left _ (hS.born x hx)
    · exact List.mem_append_right _ (List.mem_singleton_self _)

/-! ## Every access -/

theorem addCell_of_mem (hc : c ∈ h.cells) : h.addCell c = h := by
  rw [Heap.addCell, Finset.insert_eq_of_mem hc]

theorem start_safe {a : Action ι} (hS : Safe s) (hidle : (s.frames a.thread).stack = [])
    (hg : RaceFree s a) : Safe (s.start a) := by
  have hopens : ∀ {t c}, (s.frames t).stack = [] → s.Unused t c → ∀ u, ¬ (s.frames u).Opens c := by
    intro t c hidle hun u hu
    by_cases hut : u = t
    · exact not_opens_of_idle (hut ▸ hidle) hu
    · exact hun u hut (Or.inl hu.writes)
  cases a with
  | create t k n => exact hS.create hidle hg
  | copy t k src =>
      obtain ⟨hk, hr⟩ := hg
      have hkc : .root k ∉ s.counted := fun hm => hk (hS.cells.counted hm)
      refine hS.store (some src) hidle (Or.inr ⟨k, rfl⟩)
        (fun u _ hu => hk ((hS.cells.fits u).used hu))
        (fun x => by simp [Finset.erase_eq_of_notMem hkc]) fun x hx => ⟨src, rfl, ?_, hr, hx⟩
      rintro rfl
      exact hk hr.1
  | assign t c rhs =>
      obtain ⟨hc, hun, hr⟩ := hg
      by_cases hp : s.heap.ptr c = s.heap.ptr rhs
      · rwa [State.start, if_pos hp]
      · rw [State.start, if_neg hp]
        have hst := hS.store (some rhs) hidle (Or.inl hc) hun
          (hS.cells.release hc (hopens hidle hun)) (p := s.heap.ptr rhs)
          fun x hx => ⟨rhs, rfl, by rintro rfl; exact hp rfl, hr, hx⟩
        rwa [addCell_of_mem hc] at hst
  | reset t c =>
      obtain ⟨hc, hun⟩ := hg
      by_cases hp : s.heap.ptr c = none
      · rwa [State.start, if_pos hp]
      · rw [State.start, if_neg hp]
        have hst := hS.store none hidle (Or.inl hc) hun
          (hS.cells.release hc (hopens hidle hun)) (p := none) (by simp)
        rwa [addCell_of_mem hc] at hst
  | destroy t k => exact hS.destroy hidle hg.1 hg.2
  | step t => exact hS

theorem exec_safe {i : Instr} (hS : Safe s) (ht : (s.frames t).stack = i :: rest)
    (hg : RaceFree s (.step t)) :
    ∃ s', s.exec t (s.frames t) i rest = (.ok, s') ∧ Safe s' := by
  simp only [RaceFree, ht] at hg
  cases i with
  | ref x => exact exec_ref hS ht hg
  | unref x => exact exec_unref hS ht
  | delete x => exact exec_delete hS ht
  | destruct c => exact exec_destruct hS ht hg
  | clear c => exact exec_clear hS ht hg

theorem step_safe {a : Action ι} {b : Output} {s' : State ι} (hS : Safe s) (hg : RaceFree s a)
    (hs : (threads ι).step s a = some (b, s')) : b = .ok ∧ Safe s' := by
  by_cases ha : ∃ t, a = .step t
  · obtain ⟨t, rfl⟩ := ha
    cases ht : (s.frames t).stack with
    | nil => simp [threads, ht] at hs
    | cons i rest =>
        obtain ⟨s₁, hex, hS₁⟩ := exec_safe hS ht hg
        have hs : some (s.exec t (s.frames t) i rest) = some (b, s') := by
          simpa [threads, ht] using hs
        rw [hex] at hs
        cases hs
        exact ⟨rfl, hS₁⟩
  · have hs : (if (s.frames a.thread).stack = [] then some (Output.ok, s.start a) else none)
        = some (b, s') := by
      cases a <;> first | exact hs | exact absurd ⟨_, rfl⟩ ha
    obtain ⟨hidle, hs⟩ := Option.ite_none_right_eq_some.mp hs
    cases hs
    exact ⟨rfl, start_safe hS hidle hg⟩
end

theorem safe_init : Safe (threads ι).init := by
  have hdead : ∀ x, ¬ (threads ι).init.heap.Live x := fun x hx => Nat.not_lt_zero x hx.1
  have hpending : ∀ i, pending (threads ι).init.frames i = 0 := by
    simp [pending, threads, Frame.idle]
  have hholders : ∀ x, (threads ι).init.holders x = 0 := by
    intro x
    rw [State.holders, hpending]
    rfl
  have hends : ∀ c, (threads ι).init.ends c = 0 := by
    intro c
    rw [State.ends, hpending, hpending]
  refine ⟨⟨?_, ?_, ?_, ?_⟩, ⟨?_, ?_, ?_, ?_, ?_⟩, ⟨?_, fun _ => .idle, ?_, ?_⟩,
    ⟨?_, ?_, ?_, ?_⟩, ?_⟩
  · exact fun x hx => absurd hx (hdead x)
  · simp [hholders]
  · exact fun x hx => absurd hx (hdead x)
  · exact fun x _ => ⟨hholders x, hpending _⟩
  · simp [hends]
  · simp [hends]
  · simp [threads, Heap.empty]
  · simp [hends]
  · exact fun x hx => absurd hx (hdead x)
  all_goals simp [threads, Heap.empty, Ordered, Frame.idle, Frame.Writes]

/-- The invariant over whole runs. -/
theorem safe_of_trace {tr : List (Action ι × Output)} {s : State ι}
    (ht : (threads ι).Trace tr s) (hg : (threads ι).Guarded RaceFree tr) :
    (∀ e ∈ tr, e.2 = .ok) ∧ Safe s := by
  refine ht.guardedInv (fun tr s => (∀ e ∈ tr, e.2 = .ok) ∧ Safe s) ⟨by simp, safe_init⟩ ?_ hg
  intro tr s a b s' ⟨hok, hS⟩ hrace hs
  obtain ⟨rfl, hS'⟩ := step_safe hS hrace hs
  refine ⟨fun e he => ?_, hS'⟩
  rcases List.mem_append.mp he with he | he
  · exact hok e he
  · rw [List.mem_singleton.mp he]

omit [DecidableEq ι] in
/-- When all threads are done, every `RefPtr` is counted. -/
theorem holders_of_idle {s : State ι} (hS : Safe s) (hidle : ∀ t, (s.frames t).stack = [])
    (x : Nat) : s.holders x = s.heap.refs x := by
  have hpending : pending s.frames (.unref x) = 0 := by simp [pending, hidle]
  rw [State.holders, hpending, Nat.add_zero, pointers, Heap.refs]
  congr 1
  ext c
  simp only [Finset.mem_filter]
  constructor
  · rintro ⟨hc, hp⟩
    exact ⟨hS.cells.counted hc, hp⟩
  · rintro ⟨hc, hp⟩
    refine ⟨hS.cells.counted_of_unwritten hc (fun u => not_opens_of_idle (hidle u)) ?_, hp⟩
    simp [hp]

instance (s : State ι) (t : ι) (c : Cell) : Decidable (s.Unused t c) :=
  inferInstanceAs (Decidable (∀ _, _))

instance (s : State ι) (t : ι) (c : Cell) : Decidable (s.Readable t c) :=
  inferInstanceAs (Decidable (_ ∧ ∀ _, _))

instance (s : State ι) (a : Action ι) : Decidable (RaceFree s a) := by
  unfold RaceFree
  split
  case h_6 => split <;> infer_instance
  all_goals infer_instance

-- a variable is copied while its own thread destroys it
example : ((threads Bool).run [.create false 0 0, .copy true 1 (.root 0), .destroy false 0,
    .step false, .step false, .step false, .step true] (threads Bool).init).map
      (fun r => r.1.map Prod.snd) = some [.ok, .ok, .ok, .ok, .ok, .ok, .fault] := rfl

/-- One thread makes an object that holds another one, and a second thread copies the pointer. Both
threads release it at the same time. -/
def sharedHistory : List (Action Bool) :=
  [.create false 0 1, .create false 1 0, .assign false (.member 0 0) (.root 1), .step false,
    .copy true 2 (.root 0), .step true, .destroy false 0, .destroy true 2, .step false, .step true,
    .step false, .step true, .step false, .step true, .step true, .step true, .step true,
    .step true]

end Lunchbox.RefPtr.Threads
