import Lunchbox.Lib.PartialMap
import Lunchbox.RefPtr.Invariant

set_option autoImplicit false

/-! # Reference counting is exact

The operations of a program on objects and `RefPtr`, each of which keeps the invariant with
nothing left in the middle (`Inv limit ∅ []`), and what follows for every run of a program. The
count is a 32-bit integer, so this is about programs that let less than `2 ^ 31` `RefPtr` point
to one object at a time; with more of them the count is wrong.
-/

namespace Lunchbox.RefPtr

open Function StateMachine
open SpinLock (toInt32)

variable {limit : Nat} {h h' : Heap} {x y : Nat} {c : Cell} {u : List Nat} {p : Option Nat}

/-! ## The operations -/

theorem holders_empty (h : Heap) (x : Nat) : h.holders ∅ [] x = h.refs x := by
  simp only [Heap.holders, Finset.sdiff_empty, List.count_nil, Nat.add_zero]
  rfl

/-- Changing one pointer. -/
theorem pointers_update {S : Finset Cell} (ptr : Cell → Option Nat) (hc : c ∈ S) (p : Option Nat)
    (x : Nat) :
    pointers S (update ptr c p) x + (if ptr c = some x then 1 else 0)
      = pointers S ptr x + if p = some x then 1 else 0 := by
  have hrest : pointers (S.erase c) (update ptr c p) x = pointers (S.erase c) ptr x :=
    pointers_congr (fun c' hc' => update_of_ne (Finset.ne_of_mem_erase hc') _ _) x
  rw [pointers_erase _ hc x, pointers_erase ptr hc x, hrest, update_self]
  omega

/-- Adding one pointer. -/
theorem pointers_insert {S : Finset Cell} (ptr : Cell → Option Nat) (hc : c ∉ S) (p : Option Nat)
    (x : Nat) :
    pointers (insert c S) (update ptr c p) x = pointers S ptr x + if p = some x then 1 else 0 := by
  have hrest : ∀ c' ∈ S, update ptr c p c' = ptr c' := by
    intro c' hc'
    refine update_of_ne ?_ _ _
    rintro rfl
    exact hc hc'
  rw [pointers_erase _ (Finset.mem_insert_self c S), Finset.erase_insert hc, update_self,
    pointers_congr hrest]

/-- A pointer is set to null before the object is released. -/
theorem Inv.clearPtr (hi : Inv limit ∅ [] h) (hc : c ∈ h.cells) :
    Inv limit ∅ (h.ptr c).toList (h.setPtr c none) := by
  have hholders : ∀ x, (h.setPtr c none).holders ∅ (h.ptr c).toList x = h.holders ∅ [] x := by
    intro x
    have hupd := pointers_update h.ptr hc none x
    simp only [reduceCtorEq, if_false, Nat.add_zero] at hupd
    rw [holders_empty, Heap.holders, Finset.sdiff_empty, count_toList]
    exact hupd
  refine hi.of_same_holders rfl rfl rfl hholders ?_ ?_ hi.members hi.owner (by simp)
  · intro c' hc' x hx
    exact hi.target c' hc' x (PartialMap.update_none_eq.mp hx).2
  · intro x hx
    exact hi.target c (by simpa using hc) x (Option.mem_toList.mp hx)

/-- A null pointer is set to an object, which is referenced. -/
theorem Inv.setPtr_ref (hl : limit < 2 ^ 31) (hi : Inv limit ∅ u h) (hc : c ∈ h.cells)
    (hnull : h.ptr c = none) (hy : h.Live y) (hroom : h.holders ∅ u y < limit) :
    ∃ h', (h.setPtr c (some y)).ref y = .ok h' ∧ Inv limit ∅ u h' := by
  have hholders : ∀ x, (h.setPtr c (some y)).holders ∅ u x
      = h.holders ∅ u x + if y = x then 1 else 0 := by
    intro x
    have hupd := pointers_update h.ptr hc (some y) x
    rw [hnull, if_neg (by simp), Nat.add_zero] at hupd
    simp only [Heap.holders, Finset.sdiff_empty, Option.some.injEq] at hupd ⊢
    show pointers h.cells (update h.ptr c (some y)) x + _ = _
    omega
  -- there is room for one more holder, so the increment does not wrap
  have hcount : toInt32 ((h.objects y).refCount + 1) = (h.holders ∅ u y + 1 : Nat) := by
    rw [hi.count y hy, SpinLock.toInt32_of_lt (by omega) (by omega)]
    rfl
  have hlog : ∀ x, Event.ref x ∈ h.log ++ [.ref y] ↔ .ref x ∈ h.log ∨ x = y := by simp
  have hlogInv : LogInv (h.setPtr c (some y)) := ⟨hi.known, hi.deleted, hi.referenced, hi.ordered⟩
  refine ⟨_, if_pos hy, (hlogInv.setCount y _).record ((live_setCount _ _).mpr hy) (by simp),
    ?_, ?_, ?_, ?_, ?_, hi.owner, by simp, ?_⟩
  · intro x hx
    show (update h.objects y _ x).refCount = ((h.setPtr c (some y)).holders ∅ u x : Int)
    rw [hholders]
    by_cases hxy : x = y
    · subst hxy
      rw [update_self, if_pos rfl]
      exact hcount
    · rw [update_of_ne hxy, if_neg (Ne.symm hxy)]
      exact hi.count x ((live_setCount _ _).mp hx)
  · intro x hx
    show (h.setPtr c (some y)).holders ∅ u x ≤ limit
    rw [hholders]
    by_cases hxy : y = x
    · subst hxy
      rw [if_pos rfl]
      exact hroom
    · rw [if_neg hxy]
      exact hi.bound x ((live_setCount _ _).mp hx)
  · intro c' hc' x hx
    rw [live_record, live_setCount, live_setPtr]
    rcases PartialMap.update_some_eq.mp hx with ⟨-, rfl⟩ | ⟨-, hx⟩
    · exact hy
    · exact hi.target c' hc' x hx
  · exact fun x hx => (live_setCount _ _).mpr (hi.pending x hx)
  · intro x hx c' hc'
    exact hi.members x ((live_setCount _ _).mp hx) c' ((membersOf_setCount y _ x) ▸ hc')
  · intro x hx
    show Event.ref x ∈ h.log ++ [.ref y] ↔ 0 < (h.setPtr c (some y)).holders ∅ u x
    rw [hlog, hholders, hi.held x ((live_setCount _ _).mp hx)]
    by_cases hxy : x = y
    · subst hxy
      simp
    · simp [hxy, Ne.symm hxy]

theorem attach_spec (hl : limit < 2 ^ 31) (hi : Inv limit ∅ u h) (hc : c ∈ h.cells)
    (hnull : h.ptr c = none) (hp : ∀ x, p = some x → h.Live x ∧ h.holders ∅ u x < limit) :
    ∃ h', (h.setPtr c p).attach p = .ok h' ∧ Inv limit ∅ u h' := by
  cases p with
  | none =>
      have hsame : h.setPtr c none = h := by
        rw [Heap.setPtr, ← hnull, update_eq_self]
      exact ⟨h, by rw [hsame]; rfl, hi⟩
  | some y => exact hi.setPtr_ref hl hc hnull (hp y rfl).1 (hp y rfl).2

theorem liveCount_lt (h : Heap) : h.liveCount < h.next + 1 :=
  Nat.lt_succ_of_le ((Finset.card_filter_le _ _).trans (Finset.card_range _).le)

theorem detach_spec (hl : limit < 2 ^ 31) (hi : Inv limit ∅ p.toList h) :
    ∃ h', h.detach p = .ok h' ∧ Inv limit ∅ [] h' := by
  cases p with
  | none => exact ⟨h, rfl, hi⟩
  | some y =>
      obtain ⟨h', hrun, hi', -⟩ := unref_spec hl (h.next + 1) h ∅ [] y hi (liveCount_lt h)
      exact ⟨h', hrun, hi'⟩

/-- The new object is referenced before the old one is released. -/
theorem assignPtr_spec (hl : limit < 2 ^ 31) (hi : Inv limit ∅ [] h) (hc : c ∈ h.cells)
    (hp : h.ptr c ≠ p → ∀ x, p = some x → h.Live x ∧ h.refs x < limit) :
    ∃ h', h.assignPtr c p = .ok h' ∧ Inv limit ∅ [] h' := by
  unfold Heap.assignPtr
  by_cases hsame : h.ptr c = p
  · exact ⟨h, if_pos hsame, hi⟩
  · -- as if the pointer were null between the two calls, with the `unref` still to come
    have hclear := hi.clearPtr hc
    have hholders : ∀ x, (h.setPtr c none).Live x →
        (h.setPtr c none).holders ∅ (h.ptr c).toList x = h.refs x := by
      intro x hx
      have hcount := hclear.count x hx
      rw [← holders_empty]
      exact Int.ofNat.inj (hcount.symm.trans (hi.count x hx))
    obtain ⟨h1, hrun, hi1⟩ := attach_spec hl hclear hc (update_self _ _ _) fun x hx => by
      obtain ⟨hlive, hroom⟩ := hp hsame x hx
      exact ⟨hlive, by rwa [hholders x hlive]⟩
    have hset : (h.setPtr c none).setPtr c p = h.setPtr c p := by
      simp only [Heap.setPtr, update_idem]
    rw [hset] at hrun
    obtain ⟨h2, hrun2, hi2⟩ := detach_spec hl hi1
    refine ⟨h2, ?_, hi2⟩
    rw [if_neg hsame, hrun]
    exact hrun2

/-- A new `RefPtr`, still null. -/
theorem Inv.addCell {k : Nat} (hi : Inv limit ∅ [] h) (hk : .root k ∉ h.cells) :
    Inv limit ∅ [] ((h.addCell (.root k)).setPtr (.root k) none) := by
  have hholders : ∀ x, ((h.addCell (.root k)).setPtr (.root k) none).holders ∅ [] x
      = h.holders ∅ [] x := by
    intro x
    rw [holders_empty, holders_empty]
    have hins := pointers_insert h.ptr hk none x
    simp only [reduceCtorEq, if_false, Nat.add_zero] at hins
    exact hins
  refine hi.of_same_holders rfl rfl rfl hholders ?_ (by simp) ?_ ?_ (by simp)
  · intro c hc x hx
    obtain ⟨hne, hx⟩ := PartialMap.update_none_eq.mp hx
    have hc := Finset.mem_of_mem_insert_of_ne (Finset.mem_sdiff.mp hc).1 hne
    exact hi.target c (by simpa using hc) x hx
  · exact fun x hx c hc => Finset.mem_insert_of_mem (hi.members x hx c hc)
  · intro x j hm
    rcases Finset.mem_insert.mp hm with he | hm
    · cases he
    · exact hi.owner x j hm

theorem construct_spec {k : Nat} (hl : limit < 2 ^ 31) (hi : Inv limit ∅ [] h)
    (hk : .root k ∉ h.cells) (hp : ∀ x, p = some x → h.Live x ∧ h.refs x < limit) :
    ∃ h', h.construct k p = .ok h' ∧ Inv limit ∅ [] h' := by
  have hadd := hi.addCell hk
  obtain ⟨h', hrun, hi'⟩ := attach_spec (p := p) hl hadd (Finset.mem_insert_self _ _)
    (update_self _ _ _) fun x hx => by
      obtain ⟨hlive, hroom⟩ := hp x hx
      have hcount := (hadd.count x hlive).symm.trans (hi.count x hlive)
      rw [holders_empty h] at hcount
      exact ⟨hlive, by rwa [Int.ofNat.inj hcount]⟩
  refine ⟨h', ?_, hi'⟩
  rw [← hrun, Heap.construct]
  simp only [Heap.setPtr, update_idem]

theorem destroy_spec {k : Nat} (hl : limit < 2 ^ 31) (hi : Inv limit ∅ [] h)
    (hk : .root k ∈ h.cells) : ∃ h', h.destroy (.root k) = .ok h' ∧ Inv limit ∅ [] h' := by
  obtain ⟨h', hrun, hi', -⟩ := destruct_spec (unref_spec hl (h.next + 1)) hi (liveCount_lt h) hk
    (Finset.notMem_empty _) id
  exact ⟨h', hrun, hi'⟩

theorem live_create (n : Nat) : (h.create n).Live x ↔ h.Live x ∨ x = h.next := by
  by_cases hx : x = h.next
  · subst hx
    simp [Heap.Live, Heap.create]
  · have hlt : x < h.next + 1 ↔ x < h.next := by omega
    simp [Heap.Live, Heap.create, hx, hlt]

/-- The members of a new object are null. -/
theorem ptr_create (hi : Inv limit ∅ [] h) {n : Nat} :
    c ∈ (h.create n).cells ∧ (h.create n).ptr c = some x ↔ c ∈ h.cells ∧ h.ptr c = some x := by
  have hcells : c ∈ (h.create n).cells ↔
      c ∈ h.cells ∨ c ∈ (List.range n).map (Cell.member h.next) := by
    rw [← List.mem_toFinset, ← Finset.mem_union]
    rfl
  have hptr : (h.create n).ptr c
      = if c ∈ (List.range n).map (Cell.member h.next) then none else h.ptr c := rfl
  rw [hcells, hptr]
  by_cases hm : c ∈ (List.range n).map (Cell.member h.next)
  · have hold : c ∉ h.cells := by
      intro hc
      obtain ⟨j, -, rfl⟩ := List.mem_map.mp hm
      exact Nat.lt_irrefl _ (hi.owner _ _ hc)
    simp [hm, hold]
  · simp [hm]

theorem holders_create (hi : Inv limit ∅ [] h) (n x : Nat) :
    (h.create n).holders ∅ [] x = h.holders ∅ [] x := by
  rw [holders_empty, holders_empty, Heap.refs, Heap.refs]
  congr 1
  ext c
  rw [Finset.mem_filter, Finset.mem_filter]
  exact ptr_create hi

/-- Nothing points to an object that does not exist yet. -/
theorem Inv.holders_next (hi : Inv limit ∅ [] h) : h.holders ∅ [] h.next = 0 := by
  rw [holders_empty, Heap.refs, Finset.card_eq_zero, Finset.filter_eq_empty_iff]
  intro c hc hx
  exact Nat.lt_irrefl _ (hi.target c (by simpa using hc) _ hx).1

theorem objects_create_self (n : Nat) : (h.create n).objects h.next = ⟨0, n, false⟩ :=
  update_self _ _ _

theorem objects_create (hx : h.Live x) (n : Nat) : (h.create n).objects x = h.objects x :=
  update_of_ne (Nat.ne_of_lt hx.1) _ _

theorem LogInv.create (hl : LogInv h) (n : Nat) : LogInv (h.create n) := by
  refine ⟨fun e he => Nat.lt_succ_of_lt (hl.known e he), fun x => ?_, hl.referenced, hl.ordered⟩
  rw [show (h.create n).log = h.log from rfl, hl.deleted x]
  by_cases hx : x = h.next
  · subst hx
    simp [objects_create_self]
  · have hlt : x < h.next + 1 ↔ x < h.next := by omega
    rw [show (h.create n).objects x = h.objects x from update_of_ne hx _ _]
    exact and_congr_left fun _ => hlt.symm

theorem create_spec (hi : Inv limit ∅ [] h) (n : Nat) : Inv limit ∅ [] (h.create n) := by
  -- an object of the new heap is an old one or the new one, which nothing points to
  refine ⟨hi.toLogInv.create n, ?_, ?_, ?_, by simp, ?_, ?_, by simp, ?_⟩
  · intro x hx
    rw [holders_create hi]
    rcases (live_create n).mp hx with hx | rfl
    · rw [objects_create hx]
      exact hi.count x hx
    · rw [objects_create_self, hi.holders_next]
      rfl
  · intro x hx
    rw [holders_create hi]
    rcases (live_create n).mp hx with hx | rfl
    · exact hi.bound x hx
    · rw [hi.holders_next]
      exact Nat.zero_le _
  · intro c hc x hx
    obtain ⟨hc, hx⟩ := (ptr_create hi).mp ⟨(Finset.mem_sdiff.mp hc).1, hx⟩
    exact (live_create n).mpr (Or.inl (hi.target c (by simpa using hc) x hx))
  · intro x hx c hc
    obtain ⟨j, hj, rfl⟩ := mem_membersOf.mp hc
    rcases (live_create n).mp hx with hx | rfl
    · rw [objects_create hx] at hj
      exact Finset.mem_union_left _ (hi.members x hx _ (mem_membersOf.mpr ⟨j, hj, rfl⟩))
    · rw [objects_create_self] at hj
      exact Finset.mem_union_right _ (by simpa using hj)
  · intro x j hm
    rcases Finset.mem_union.mp hm with hm | hm
    · exact Nat.lt_succ_of_lt (hi.owner x j hm)
    · obtain ⟨i, -, he⟩ := List.mem_map.mp (List.mem_toFinset.mp hm)
      rw [← (Cell.member.inj he).1]
      exact Nat.lt_succ_self _
  · intro x hx
    rw [holders_create hi]
    rcases (live_create n).mp hx with hx | rfl
    · exact hi.held x hx
    · rw [hi.holders_next]
      exact iff_of_false (fun hm => Nat.lt_irrefl _ (hi.known _ hm)) (Nat.lt_irrefl _)

/-! ## Programs -/

/-- The operations of a program. -/
inductive Op
  /-- `new T`, with `n` members of type `RefPtr` -/
  | create (n : Nat)
  /-- `RefPtr(T*)` -/
  | construct (k : Nat) (p : Option Nat)
  /-- `RefPtr(const RefPtr&)` -/
  | copy (k : Nat) (c : Cell)
  /-- `operator=(T*)` -/
  | assignPtr (c : Cell) (p : Option Nat)
  /-- `operator=(const RefPtr&)` -/
  | assign (c rhs : Cell)
  /-- `~RefPtr()` -/
  | destroy (k : Nat)

inductive Output
  | done
  | created (x : Nat)
  | fault (f : Fault)

/-- A C pointer that a program may use: null, or to an object that exists. -/
def Heap.Valid (h : Heap) (p : Option Nat) : Prop := ∀ x ∈ p, h.Live x

/-- Another `RefPtr` may point there. -/
def Heap.Room (limit : Nat) (h : Heap) (p : Option Nat) : Prop := ∀ x ∈ p, h.refs x < limit

instance (h : Heap) (p : Option Nat) : Decidable (h.Valid p) :=
  inferInstanceAs (Decidable (∀ x ∈ p, _))

instance (limit : Nat) (h : Heap) (p : Option Nat) : Decidable (h.Room limit p) :=
  inferInstanceAs (Decidable (∀ x ∈ p, _))

def outcome (h : Heap) : Except Fault Heap → Output × Heap
  | .ok h' => (.done, h')
  | .error f => (.fault f, h)

/-- A program that lets at most `limit` `RefPtr` point to one object. It constructs a variable
once, uses only a `RefPtr` that exists, and does not keep C pointers to deleted objects. -/
def program (limit : Nat) : Machine Heap Op Output where
  init := Heap.empty
  step h
    | .create n => some (.created h.next, h.create n)
    | .construct k p =>
        if .root k ∉ h.cells ∧ h.Valid p ∧ h.Room limit p then some (outcome h (h.construct k p))
        else none
    | .copy k c =>
        if .root k ∉ h.cells ∧ c ∈ h.cells ∧ h.Room limit (h.ptr c) then
          some (outcome h (h.copy k c))
        else none
    | .assignPtr c p =>
        if c ∈ h.cells ∧ h.Valid p ∧ (h.ptr c = p ∨ h.Room limit p) then
          some (outcome h (h.assignPtr c p))
        else none
    | .assign c rhs =>
        if c ∈ h.cells ∧ rhs ∈ h.cells ∧ (h.ptr c = h.ptr rhs ∨ h.Room limit (h.ptr rhs)) then
          some (outcome h (h.assign c rhs))
        else none
    | .destroy k =>
        if .root k ∈ h.cells then some (outcome h (h.destroy (.root k))) else none

abbrev History := List (Op × Output)

/-! ## Runs -/

theorem inv_init : Inv limit ∅ [] (program limit).init := by
  have hlive : ∀ x, ¬ Heap.empty.Live x := fun x hx => Nat.not_lt_zero _ hx.1
  have hlog : LogInv Heap.empty :=
    ⟨by simp [Heap.empty], by simp [Heap.empty], by simp [Heap.empty],
      by simp [Heap.empty, Ordered]⟩
  exact ⟨hlog, fun x hx => absurd hx (hlive x), fun x hx => absurd hx (hlive x),
    by simp [program, Heap.empty], by simp, fun x hx => absurd hx (hlive x),
    by simp [program, Heap.empty], by simp, fun x hx => absurd hx (hlive x)⟩

theorem outcome_spec {r : Except Fault Heap} {b : Output}
    (hr : ∃ h', r = .ok h' ∧ Inv limit ∅ [] h') (ho : outcome h r = (b, h')) :
    (∀ f, b ≠ .fault f) ∧ Inv limit ∅ [] h' := by
  obtain ⟨h1, rfl, hi⟩ := hr
  cases ho
  exact ⟨by simp, hi⟩

/-- **One operation.** -/
theorem step_spec {op : Op} {b : Output} (hl : limit < 2 ^ 31) (hi : Inv limit ∅ [] h)
    (hs : (program limit).step h op = some (b, h')) :
    (∀ f, b ≠ .fault f) ∧ Inv limit ∅ [] h' := by
  have htarget : ∀ c ∈ h.cells, ∀ x, h.ptr c = some x → h.Live x :=
    fun c hc => hi.target c (by simpa using hc)
  cases op with
  | create n =>
      cases hs
      exact ⟨by simp, create_spec hi n⟩
  | construct k p =>
      simp only [program] at hs
      split_ifs at hs with hg
      obtain ⟨hk, hvalid, hroom⟩ := hg
      exact outcome_spec (construct_spec hl hi hk fun x hx => ⟨hvalid x hx, hroom x hx⟩)
        (Option.some.inj hs)
  | copy k c =>
      simp only [program] at hs
      split_ifs at hs with hg
      obtain ⟨hk, hc, hroom⟩ := hg
      exact outcome_spec (construct_spec hl hi hk fun x hx => ⟨htarget c hc x hx, hroom x hx⟩)
        (Option.some.inj hs)
  | assignPtr c p =>
      simp only [program] at hs
      split_ifs at hs with hg
      obtain ⟨hc, hvalid, hroom⟩ := hg
      exact outcome_spec (assignPtr_spec hl hi hc fun hne x hx =>
        ⟨hvalid x hx, hroom.resolve_left hne x hx⟩) (Option.some.inj hs)
  | assign c rhs =>
      simp only [program] at hs
      split_ifs at hs with hg
      obtain ⟨hc, hrhs, hroom⟩ := hg
      exact outcome_spec (assignPtr_spec hl hi hc fun hne x hx =>
        ⟨htarget rhs hrhs x hx, hroom.resolve_left hne x hx⟩) (Option.some.inj hs)
  | destroy k =>
      simp only [program] at hs
      split_ifs at hs with hk
      exact outcome_spec (destroy_spec hl hi hk) (Option.some.inj hs)

theorem inv_trace {tr : History} (hl : limit < 2 ^ 31) (ht : (program limit).Trace tr h) :
    Inv limit ∅ [] h :=
  ht.stateInv _ inv_init fun _ _ _ _ hi hs => (step_spec hl hi hs).2

/-- **Reference counting is exact.** For a program that never lets `2 ^ 31` `RefPtr` point to one
object, after every operation: the operation called no deleted object and came to an end; the
count of every object is the number of `RefPtr` that point to it; after the deletion of an
object there was no call on it, so that it is deleted once; and the deleted objects are those
that have been referenced and have no `RefPtr` left. -/
theorem reference_counting_exact (hl : limit < 2 ^ 31) {tr : History}
    (ht : (program limit).Trace tr h) :
    (∀ e ∈ tr, ∀ f, e.2 ≠ .fault f) ∧
    (∀ x, h.Live x → (h.objects x).refCount = h.refs x) ∧
    (∀ pre x post, h.log = pre ++ .delete x :: post →
      .ref x ∉ post ∧ .unref x ∉ post ∧ .delete x ∉ post) ∧
    (∀ x, x < h.next → ((h.objects x).deleted = true ↔ .delete x ∈ h.log)) ∧
    ∀ x, .delete x ∈ h.log ↔ .ref x ∈ h.log ∧ h.refs x = 0 := by
  have hi := inv_trace hl ht
  refine ⟨?_, ?_, ?_, ?_, ?_⟩
  · rintro ⟨op, b⟩ he
    obtain ⟨pre, post, rfl⟩ := List.append_of_mem he
    obtain ⟨h0, h1, ht0, hs⟩ := ht.split
    exact (step_spec hl (inv_trace hl ht0) hs).1
  · intro x hx
    rw [hi.count x hx, holders_empty]
  · intro pre x post hlog
    have ho := hi.ordered pre x post hlog
    exact ⟨fun hm => ho _ hm rfl, fun hm => ho _ hm rfl, fun hm => ho _ hm rfl⟩
  · intro x hx
    rw [hi.deleted x]
    exact (and_iff_right hx).symm
  · intro x
    constructor
    · intro hd
      refine ⟨hi.referenced x hd, ?_⟩
      rw [Heap.refs, Finset.card_eq_zero, Finset.filter_eq_empty_iff]
      intro c hc hx
      exact hi.not_deleted (hi.target c (by simpa using hc) x hx) hd
    · rintro ⟨href, hzero⟩
      by_contra hd
      have hlt : x < h.next := hi.known _ href
      have hlive : h.Live x := by
        refine ⟨hlt, ?_⟩
        rw [hi.deleted x, not_and] at hd
        exact Bool.eq_false_of_not_eq_true (hd hlt)
      have hpos := (hi.held x hlive).mp href
      rw [holders_empty, hzero] at hpos
      exact Nat.lt_irrefl _ hpos

/-- `p = p->next`, for a list of two objects. -/
def nextHistory : History :=
  [(.create 1, .created 0), (.create 1, .created 1), (.construct 0 (some 0), .done),
    (.assignPtr (.member 0 0) (some 1), .done), (.assign (.root 0) (.member 0 0), .done)]

/-- The first object is deleted, the second one is held by `p`. -/
theorem reference_counting_exact_next :
    ∃ h, (program 2).Trace nextHistory h ∧ (h.objects 0).deleted = true ∧
      (h.objects 1).refCount = h.refs 1 ∧
      h.log = [.ref 0, .ref 1, .ref 1, .unref 0, .delete 0, .unref 1] := by
  have ht : (program 2).Trace nextHistory _ := Machine.Trace.of_run
    [.create 1, .create 1, .construct 0 (some 0), .assignPtr (.member 0 0) (some 1),
      .assign (.root 0) (.member 0 0)] rfl
  exact ⟨_, ht, rfl, (reference_counting_exact (by decide) ht).2.1 1 (by decide), rfl⟩

/-! ## The count overflows -/

/-- A program that constructs `n` `RefPtr` to one object. -/
theorem trace_construct (n : Nat) (hn : n ≤ limit) :
    ∃ tr h, (program limit).Trace tr h ∧ h.Live 0 ∧ h.refs 0 = n ∧
      (h.objects 0).refCount = toInt32 n ∧ ∀ k, .root k ∈ h.cells → k < n := by
  induction n with
  | zero =>
      have ht : (program limit).Trace [(.create 0, .created 0)] _ :=
        Machine.Trace.of_run [.create 0] rfl
      exact ⟨_, _, ht, ⟨Nat.one_pos, rfl⟩, rfl, rfl, by simp [program, Heap.create, Heap.empty]⟩
  | succ n ih =>
      obtain ⟨tr, h, ht, hlive, hrefs, hcount, hroots⟩ := ih (by omega)
      have hk : Cell.root n ∉ h.cells := fun hm => Nat.lt_irrefl _ (hroots n hm)
      have hstep : (program limit).step h (.construct n (some 0)) = some (.done,
          (((h.addCell (.root n)).setPtr (.root n) (some 0)).setCount 0
            (toInt32 ((h.objects 0).refCount + 1))).record (.ref 0)) := by
        have hguard : .root n ∉ h.cells ∧ h.Valid (some 0) ∧ h.Room limit (some 0) :=
          ⟨hk, by simpa [Heap.Valid] using hlive, by simp [Heap.Room, hrefs]; omega⟩
        simp only [program, if_pos hguard, Heap.construct, Heap.attach, Heap.ref]
        rw [if_pos (show ((h.addCell _).setPtr _ _).Live 0 from hlive)]
        rfl
      refine ⟨_, _, ht.snoc hstep, (live_setCount _ _).mpr hlive, ?_, ?_, fun k hm => ?_⟩
      · have hins := pointers_insert h.ptr hk (some 0) 0
        rw [if_pos rfl] at hins
        exact hins.trans (congrArg (· + 1) hrefs)
      · simp only [Heap.record, Heap.setCount, update_self, hcount, toInt32, Int.bmod_add_bmod,
          Nat.cast_succ]
      · rcases Finset.mem_insert.mp hm with he | hm
        · rw [Cell.root.inj he]
          exact Nat.lt_succ_self n
        · exact Nat.lt_succ_of_lt (hroots k hm)

theorem count_overflows :
    ∃ tr h, (program (2 ^ 31)).Trace tr h ∧ h.Live 0 ∧ (h.objects 0).refCount ≠ h.refs 0 := by
  obtain ⟨tr, h, ht, hlive, hrefs, hcount, -⟩ := trace_construct (2 ^ 31) (le_refl _)
  refine ⟨tr, h, ht, hlive, ?_⟩
  rw [hcount, hrefs]
  decide

end Lunchbox.RefPtr
