import Lunchbox.SpinLock.Sections

set_option autoImplicit false

/-! # `Pool`

The object pool of `pool.h`, shared by threads. `alloc` returns a cached item or a new one,
`release` gives an item back to the cache, `flush`, which the destructor also calls, deletes what is
cached. Each function is a section under the write lock, with one step for every access to the
cache.

An item has one owner: it is held by one client, cached, or deleted (`pool_items_exclusive`),
provided that clients release only what they hold.
-/

namespace Lunchbox.Pool

open StateMachine Linearizability SpinLock

/-! ## The functions -/

/-- The cache, with the number of items constructed so far, which are named by their order, and the
items that were deleted. -/
structure Contents where
  cache : List Nat
  constructed : Nat
  deleted : List Nat
  deriving DecidableEq

inductive Op
  | alloc
  | release (item : Nat)
  | flush
  deriving DecidableEq

inductive Reply
  | item (x : Nat)
  | done
  deriving DecidableEq

/-- The next access in the body of a function. -/
inductive Point
  /-- `alloc`: `_cache.empty()` -/
  | test
  /-- `alloc`: `new T` -/
  | construct
  /-- `alloc`: `_cache.back()` -/
  | back
  /-- `alloc`: `_cache.pop_back()` -/
  | pop (item : Nat)
  /-- `release`: `_cache.push_back( item )` -/
  | push (item : Nat)
  /-- `flush`: `_cache.empty()` -/
  | flushTest
  /-- `flush`: `delete _cache.back()` -/
  | flushDelete
  /-- `flush`: `_cache.pop_back()` -/
  | flushPop

/-- `_cache.back()`; the functions call it only if the cache is not empty. -/
def Contents.last (p : Contents) : Nat := p.cache.getLastD 0

def Contents.step (p : Contents) : Point → Contents × (Point ⊕ Reply)
  | .test => (p, .inl (if p.cache = [] then .construct else .back))
  | .construct => ({ p with constructed := p.constructed + 1 }, .inr (.item p.constructed))
  | .back => (p, .inl (.pop p.last))
  | .pop item => ({ p with cache := p.cache.dropLast }, .inr (.item item))
  | .push item => ({ p with cache := p.cache ++ [item] }, .inr .done)
  | .flushTest => (p, if p.cache = [] then .inr .done else .inl .flushDelete)
  | .flushDelete => ({ p with deleted := p.last :: p.deleted }, .inl .flushPop)
  | .flushPop => ({ p with cache := p.cache.dropLast }, .inl .flushTest)

/-- The functions of the pool; all of them have a `ScopedFastWrite`. -/
def functions : Sections Contents Op Reply Point where
  reads _ := false
  start
    | .alloc => .test
    | .release item => .push item
    | .flush => .flushTest
  step := Contents.step

/-- The pool whose functions happen at once. -/
def atomic : Object Contents Op Reply where
  init := ⟨[], 0, []⟩
  apply p
    | .alloc =>
        if p.cache = [] then some (.item p.constructed, { p with constructed := p.constructed + 1 })
        else some (.item p.last, { p with cache := p.cache.dropLast })
    | .release item => some (.done, { p with cache := p.cache ++ [item] })
    | .flush => some (.done, { p with cache := [], deleted := p.cache ++ p.deleted })

/-! ## The bodies compute the functions -/

/-- Where the body of a function begun with the pool `a` can be, with the pool `b`. The loop of
`flush` has moved the end of the cache to the deleted items. -/
def At (a : Contents) : Op → Contents → Point → Prop
  | .alloc, b, k => b = a ∧ (k = .test ∨ (k = .construct ∧ a.cache = []) ∨
      (a.cache ≠ [] ∧ (k = .back ∨ k = .pop a.last)))
  | .release item, b, k => b = a ∧ k = .push item
  | .flush, b, k => ∃ l l', a.cache = l ++ l' ∧
      ((k = .flushTest ∧ b = ⟨l, a.constructed, l' ++ a.deleted⟩) ∨
        (k = .flushDelete ∧ l ≠ [] ∧ b = ⟨l, a.constructed, l' ++ a.deleted⟩) ∨
        (k = .flushPop ∧ ∃ x, b = ⟨l ++ [x], a.constructed, l' ++ a.deleted⟩ ∧ l'.head? = some x))

theorem last_concat (l : List Nat) (x n : Nat) (d : List Nat) :
    (⟨l ++ [x], n, d⟩ : Contents).last = x := by
  simp [Contents.last]

theorem at_of_reaches {a b : Contents} {op : Op} {k : Point} (h : functions.Reaches a op b k) :
    At a op b k := by
  induction h with
  | start =>
      cases op with
      | alloc => exact ⟨rfl, Or.inl rfl⟩
      | release item => exact ⟨rfl, rfl⟩
      | flush => exact ⟨a.cache, [], (List.append_nil _).symm, Or.inl ⟨rfl, rfl⟩⟩
  | @step b k k' _ hk ih =>
      cases op with
      | release item =>
          obtain ⟨rfl, rfl⟩ := ih
          cases hk
      | alloc =>
          obtain ⟨rfl, rfl | ⟨rfl, hc⟩ | ⟨hc, rfl | rfl⟩⟩ := ih
          · by_cases hc : b.cache = []
            · simp only [functions, Contents.step, hc, if_true, Sum.inl.injEq] at hk ⊢
              exact ⟨rfl, Or.inr (Or.inl ⟨hk.symm, hc⟩)⟩
            · simp only [functions, Contents.step, hc, if_false, Sum.inl.injEq] at hk ⊢
              exact ⟨rfl, Or.inr (Or.inr ⟨hc, Or.inl hk.symm⟩)⟩
          · cases hk
          · cases hk
            exact ⟨rfl, Or.inr (Or.inr ⟨hc, Or.inr rfl⟩)⟩
          · cases hk
      | flush =>
          obtain ⟨l, l', hl, ⟨rfl, rfl⟩ | ⟨rfl, hne, rfl⟩ | ⟨rfl, x, rfl, hx⟩⟩ := ih
          · by_cases hc : l = []
            · simp [functions, Contents.step, hc] at hk
            · simp only [functions, Contents.step, hc, if_false, Sum.inl.injEq] at hk ⊢
              exact ⟨l, l', hl, Or.inr (Or.inl ⟨hk.symm, hc, rfl⟩)⟩
          · cases hk
            obtain ⟨l₀, x, rfl⟩ := (List.eq_nil_or_concat' l).resolve_left hne
            refine ⟨l₀, x :: l', by simpa using hl, Or.inr (Or.inr ⟨rfl, x, ?_, rfl⟩)⟩
            simp [functions, Contents.step, last_concat]
          · cases hk
            refine ⟨l, l', hl, Or.inl ⟨rfl, ?_⟩⟩
            simp [functions, Contents.step]

theorem functions_implement : functions.Implements atomic := by
  constructor
  · intro a op b k r h hr
    have hat := at_of_reaches h
    cases op with
    | release item =>
        obtain ⟨rfl, rfl⟩ := hat
        cases hr
        rfl
    | alloc =>
        obtain ⟨rfl, rfl | ⟨rfl, hc⟩ | ⟨hc, rfl | rfl⟩⟩ := hat
        · cases hr
        · cases hr
          exact if_pos hc
        · cases hr
        · cases hr
          exact if_neg hc
    | flush =>
        obtain ⟨l, l', hl, ⟨rfl, rfl⟩ | ⟨rfl, hne, rfl⟩ | ⟨rfl, x, rfl, hx⟩⟩ := hat
        · simp only [functions, Contents.step] at hr ⊢
          split at hr
          next hc =>
            cases hr
            subst hc
            simp [atomic, hl]
          next => cases hr
        · cases hr
        · cases hr
  · intro a op b k hread
    cases hread

/-! ## Every item has one owner -/

variable {ι : Type}

def heldStep (items : List Nat) : Event ι Op Reply → List Nat
  | .ret _ (.item x) => x :: items
  | .call _ (.release x) => items.erase x
  | _ => items

/-- The items the clients hold: what `alloc` returned and was not released since. -/
def held (es : List (Event ι Op Reply)) : List Nat := es.foldl heldStep []

@[simp] theorem held_snoc (es : List (Event ι Op Reply)) (e : Event ι Op Reply) :
    held (es ++ [e]) = heldStep (held es) e := by
  simp [held]

/-- Clients that hold `items` release only what they hold. -/
def Releases (items : List Nat) : List (Event ι Op Reply) → Prop
  | [] => True
  | .call t (.release x) :: es => x ∈ items ∧ Releases (heldStep items (.call t (.release x))) es
  | e :: es => Releases (heldStep items e) es

theorem Releases.left {items : List Nat} {es es' : List (Event ι Op Reply)}
    (h : Releases items (es ++ es')) : Releases items es := by
  fun_induction Releases items es with
  | case1 => trivial
  | case2 items t x es ih => exact ⟨h.1, ih h.2⟩
  | case3 items e es hne ih =>
      rw [List.cons_append, Releases] at h
      · exact ih h
      · exact hne

theorem Releases.last {items : List Nat} {es : List (Event ι Op Reply)} {t : ι} {x : Nat}
    (h : Releases items (es ++ [.call t (.release x)])) : x ∈ es.foldl heldStep items := by
  fun_induction Releases items es with
  | case1 => exact h.1
  | case2 items t x es ih => exact ih h.2
  | case3 items e es hne ih =>
      rw [List.cons_append, Releases] at h
      · exact ih h
      · exact hne

/-- The item is in the hands of a call: not cached yet, or not returned yet. -/
def carries (x : Nat) : Status Op Reply → Bool
  | .pending (.release y) => y == x
  | .done (.item y) => y == x
  | _ => false

variable [DecidableEq ι] [Fintype ι]

/-- The number of calls that have the item in their hands. -/
def carried (x : Nat) (c : Config ι Contents Op Reply) : Nat :=
  countWhere (fun st => carries x st = true) c.status

/-- An item that was constructed is in one place: held by a client, cached, deleted, or in the hands
of a call. -/
def Conserved (items : List Nat) (p : Contents) (c : Config ι Contents Op Reply) : Prop :=
  ∀ x, items.count x + p.cache.count x + p.deleted.count x + carried x c
    = (decide (x < p.constructed)).toNat

section
variable {items : List Nat} {p : Contents} {c : Config ι Contents Op Reply} {t : ι}

/-- One thread moves. -/
theorem carried_goto {st : Status Op Reply} (st' : Status Op Reply) (x : Nat)
    (h : c.status t = st) :
    carried x (c.goto t st') + (carries x st).toNat = carried x c + (carries x st').toNat := by
  have hu := countWhere_update (fun st => carries x st = true) c.status t st'
  rw [h] at hu
  simp only [Bool.toNat, Bool.cond_eq_ite]
  exact hu

theorem count_concat (l : List Nat) (x y : Nat) :
    (l ++ [y]).count x = l.count x + (y == x).toNat := by
  rw [List.count_append, List.count_singleton]
  cases y == x <;> rfl

theorem count_erase {l : List Nat} (x : Nat) {y : Nat} (h : y ∈ l) :
    (l.erase y).count x + (y == x).toNat = l.count x := by
  rcases eq_or_ne y x with rfl | hne
  · have := List.count_pos_iff.mpr h
    rw [List.count_erase_self, beq_self_eq_true, Bool.toNat_true]
    omega
  · rw [List.count_erase_of_ne hne.symm, beq_false_of_ne hne, Bool.toNat_false, Nat.add_zero]

/-- The call of `release` takes the item from the client, other calls take nothing. -/
theorem Conserved.call {op : Op} (h : Conserved items p c) (hi : c.status t = .idle)
    (hrel : ∀ y, op = .release y → y ∈ items) :
    Conserved (heldStep items (.call t op)) p (c.goto t (.pending op)) := by
  intro x
  have hx := h x
  have hg := carried_goto (.pending op) x hi
  cases op with
  | release y =>
      have he := count_erase x (hrel y rfl)
      simp only [carries, heldStep, Bool.toNat_false] at hg ⊢
      omega
  | alloc | flush =>
      simp only [carries, heldStep, Bool.toNat_false] at hg ⊢
      omega

theorem Conserved.effect {op : Op} {r : Reply} {p' : Contents} (h : Conserved items p c)
    (hp : c.status t = .pending op) (ha : atomic.apply p op = some (r, p')) :
    Conserved items p' (c.goto t (.done r)) := by
  intro x
  have hx := h x
  have hg := carried_goto (.done r) x hp
  cases op with
  | release y =>
      cases ha
      have hc := count_concat p.cache x y
      simp only [carries, Bool.toNat_false] at hg ⊢
      omega
  | flush =>
      cases ha
      have hc : (p.cache ++ p.deleted).count x = p.cache.count x + p.deleted.count x :=
        List.count_append
      simp only [carries, Bool.toNat_false, List.count_nil] at hg ⊢
      omega
  | alloc =>
      simp only [atomic] at ha
      split at ha
      next =>
        cases ha
        simp only [carries, Bool.toNat_false] at hg ⊢
        have hn : (decide (x < p.constructed + 1)).toNat
            = (decide (x < p.constructed)).toNat + (p.constructed == x).toNat := by
          rcases lt_trichotomy x p.constructed with hlt | rfl | hgt
          · simp [hlt, hlt.ne', Nat.lt_succ_of_lt hlt]
          · simp
          · simp [beq_false_of_ne hgt.ne, Nat.not_lt_of_lt hgt, Nat.not_lt.mpr hgt]
        omega
      next hc =>
        cases ha
        obtain ⟨l, y, hl⟩ := (List.eq_nil_or_concat' p.cache).resolve_left hc
        have hlast : p.last = y := by simp [Contents.last, hl]
        have hcount := count_concat l x y
        simp only [carries, Bool.toNat_false, hlast] at hg ⊢
        simp only [hl, List.dropLast_concat] at hx ⊢
        omega

/-- The return of `alloc` gives the item to the client, other returns give nothing. -/
theorem Conserved.ret {r : Reply} (h : Conserved items p c) (hd : c.status t = .done r) :
    Conserved (heldStep items (.ret t r)) p (c.goto t .idle) := by
  intro x
  have hx := h x
  have hg := carried_goto .idle x hd
  cases r with
  | item y =>
      have hc := count_concat items x y
      rw [List.count_append, Nat.add_comm, ← List.count_append, List.singleton_append] at hc
      simp only [carries, heldStep, Bool.toNat_false] at hg ⊢
      omega
  | done =>
      simp only [carries, heldStep, Bool.toNat_false] at hg ⊢
      omega
end

/-- **Conservation** in the atomic pool. -/
theorem conserved_of_moves {es : List (Event ι Op Reply)} {c : Config ι Contents Op Reply}
    (h : atomic.Moves atomic.start es c) (hrel : Releases [] es) : Conserved (held es) c.obj c := by
  induction h with
  | stay =>
      intro x
      have h0 : carried x (atomic.start : Config ι Contents Op Reply) = 0 :=
        (countWhere_eq_zero_iff _ _).mpr fun _ => by simp [Object.start, carries]
      rw [h0]
      rfl
  | call t op _ hi ih =>
      rw [held_snoc]
      refine (ih hrel.left).call hi ?_
      rintro y rfl
      exact hrel.last
  | effect t _ hp ha ih => exact (ih hrel).effect hp ha
  | ret t _ hd ih =>
      rw [held_snoc]
      exact (ih hrel.left).ret hd

omit [DecidableEq ι] [Fintype ι] in
/-- In the middle of a function, the cache and the deleted items are made of what they were. -/
theorem count_of_at {a b : Contents} {op : Op} {k : Point} (h : At a op b k) (x : Nat) :
    b.cache.count x ≤ a.cache.count x ∧
      b.deleted.count x ≤ a.cache.count x + a.deleted.count x := by
  cases op with
  | alloc | release =>
      obtain ⟨rfl, -⟩ := h
      exact ⟨le_refl _, Nat.le_add_left _ _⟩
  | flush =>
      obtain ⟨l, l', hl, ⟨-, rfl⟩ | ⟨-, -, rfl⟩ | ⟨-, y, rfl, hy⟩⟩ := h
      · simp only [hl, List.count_append]
        omega
      · simp only [hl, List.count_append]
        omega
      · obtain ⟨l₀, rfl⟩ := List.head?_eq_some_iff.mp hy
        simp only [hl, List.count_append, List.count_cons, List.count_nil]
        omega

/-- **Every item has one owner.** In every history in which the clients release only what they
hold, no item is handed out while a client holds it or after it was deleted, a held item is not
cached, and no item is deleted twice. -/
theorem pool_items_exclusive (hι : Fintype.card ι < 2 ^ 31) {tr : List (Call ι Op × Option Reply)}
    {s : Shared ι Contents Op Reply Point} (h : (sections functions atomic.init).Trace tr s)
    (hrel : Releases [] (tr.flatMap see)) :
    (held (tr.flatMap see)).Nodup ∧ s.obj.deleted.Nodup ∧
      ∀ x ∈ held (tr.flatMap see), x ∉ s.obj.cache ∧ x ∉ s.obj.deleted := by
  obtain ⟨c, hm, hsim⟩ := sections_sim hι functions_implement h
  have hcons := conserved_of_moves hm hrel
  have hcount : ∀ x, s.obj.cache.count x ≤ c.obj.cache.count x ∧
      s.obj.deleted.count x ≤ c.obj.cache.count x + c.obj.deleted.count x := by
    intro x
    by_cases hin : ∃ t op k, s.place t = .inside op k
    · obtain ⟨t, op, k, ht⟩ := hin
      exact count_of_at (at_of_reaches (hsim.inside t op k ht)) x
    · rw [hsim.obj fun t op k ht => absurd ⟨t, op, k, ht⟩ hin]
      exact ⟨le_refl _, Nat.le_add_left _ _⟩
  have hle : ∀ x,
      (held (tr.flatMap see)).count x + c.obj.cache.count x + c.obj.deleted.count x ≤ 1 := by
    intro x
    have := hcons x
    have := Bool.toNat_le (decide (x < c.obj.constructed))
    omega
  refine ⟨?_, ?_, ?_⟩
  · refine List.nodup_iff_count_le_one.mpr fun x => ?_
    have := hle x
    omega
  · refine List.nodup_iff_count_le_one.mpr fun x => ?_
    have := hle x
    have := (hcount x).2
    omega
  · intro x hx
    have := hle x
    have := hcount x
    have := List.count_pos_iff.mpr hx
    rw [← List.count_eq_zero, ← List.count_eq_zero]
    omega

/-- Two threads allocate at the same time, and one of them releases its item. -/
def twoClients : List (Call Bool Op) :=
  [.call false .alloc, .step false, .call true .alloc, .step true, .step false, .step false,
    .step false, .step false, .step true, .step true, .step true, .step true, .step true,
    .call false (.release 0), .step false, .step false, .step false, .step false]

theorem two_clients_exclusive :
    ∃ tr s, (sections functions atomic.init).Trace tr s ∧
      held (tr.flatMap (see : Call Bool Op × Option Reply → _)) = [1] ∧ s.obj.cache = [0] ∧
      (held (tr.flatMap see)).Nodup ∧ s.obj.deleted.Nodup ∧
      ∀ x ∈ held (tr.flatMap see), x ∉ s.obj.cache ∧ x ∉ s.obj.deleted := by
  have h := Machine.Trace.of_run (M := sections functions atomic.init) twoClients rfl
  refine ⟨_, _, h, rfl, rfl, pool_items_exclusive (by decide) h ?_⟩
  exact ⟨by decide, trivial⟩

/-- The functions of the pool are an instance of the sections. -/
theorem two_clients_linearizable :
    Linearizable atomic [.call false .alloc, .call true .alloc, .ret false (.item 0),
      .ret true (.item 1), .call false (.release 0), .ret false .done] := by
  have h := Machine.Trace.of_run (M := sections functions atomic.init) twoClients rfl
  exact sections_linearizable (by decide) functions_implement h

end Lunchbox.Pool
