import Lunchbox.Lib.Linearizable

set_option autoImplicit false

/-! # Two-phase locking

Operations on a family of objects, each with its lock. An operation locks the objects it uses one
after the other, in an order of its own, runs its body, and unlocks them (`Code`). The body is a
sequence of accesses, interleaved with those of all other threads.

If the body of an operation accesses only what the operation has locked, and computes an operation
of a sequential object when it runs alone, the family is linearizable
(`two_phase_linearizable`).
-/

namespace TwoPhase

open StateMachine Linearizability Function

/-! ## Bodies -/

/-- The operations `ο` on objects `α` with names `ν`. A body goes on at a place `κ` or ends with a
result `ρ`; an access that is not defined has no result. -/
structure Code (ν α ο ρ κ : Type) where
  /-- what the operation locks, in this order -/
  locks : ο → List ν
  start : ο → κ
  /-- the next access of the body -/
  step : (ν → α) → κ → Option ((ν → α) × (κ ⊕ ρ))

variable {ι ν α ο ρ κ : Type}

/-- The places of a body. -/
inductive Code.At (C : Code ν α ο ρ κ) (op : ο) : κ → Prop
  | start : C.At op (C.start op)
  | step {b b' : ν → α} {k k' : κ} : C.At op k → C.step b k = some (b', .inl k') → C.At op k'

/-- The body of `op`, begun with the objects `a`, can be at a place when the objects are `b`. -/
inductive Code.Reaches (C : Code ν α ο ρ κ) (a : ν → α) (op : ο) : (ν → α) → κ → Prop
  | start : C.Reaches a op a (C.start op)
  | step {b b' : ν → α} {k k' : κ} : C.Reaches a op b k → C.step b k = some (b', .inl k') →
      C.Reaches a op b' k'

/-- A body that runs alone ends with a result. -/
inductive Code.Ends (C : Code ν α ο ρ κ) : (ν → α) → κ → (ν → α) → ρ → Prop
  | done {b b' : ν → α} {k : κ} {r : ρ} : C.step b k = some (b', .inr r) → C.Ends b k b' r
  | step {b b' c : ν → α} {k k' : κ} {r : ρ} : C.step b k = some (b', .inl k') →
      C.Ends b' k' c r → C.Ends b k c r

/-- The objects `S` as in `b`, the other ones as in `e`. -/
def merge [DecidableEq ν] (S : List ν) (b e : ν → α) (v : ν) : α := if v ∈ S then b v else e v

/-- A body accesses only what its operation has locked: with other contents of the other objects, it
does the same and leaves them alone. -/
structure Code.Local [DecidableEq ν] (C : Code ν α ο ρ κ) : Prop where
  nodup : ∀ op, (C.locks op).Nodup
  step : ∀ op k b e, C.At op k → C.step (merge (C.locks op) b e) k
    = (C.step b k).map fun q => (merge (C.locks op) q.1 e, q.2)

/-- The bodies compute the operations of `O` when they run alone, from any valid state. -/
structure Code.Implements (C : Code ν α ο ρ κ) (O : Object (ν → α) ο ρ) (V : (ν → α) → Prop) :
    Prop where
  init : V O.init
  ends : ∀ a op, V a → ∃ r b, O.apply a op = some (r, b) ∧ V b ∧ C.Ends a (C.start op) b r

section
variable [DecidableEq ν] {S : List ν} {a b b' e e' : ν → α} {v : ν}

theorem merge_self (S : List ν) (b : ν → α) : merge S b b = b := funext fun _ => ite_self _

theorem merge_of_mem (hv : v ∈ S) : merge S b e v = b v := if_pos hv

theorem merge_of_not_mem (hv : v ∉ S) : merge S b e v = e v := if_neg hv

theorem merge_congr (hb : ∀ v ∈ S, b v = b' v) (he : ∀ v, v ∉ S → e v = e' v) :
    merge S b e = merge S b' e' := by
  funext v
  by_cases hv : v ∈ S
  · rw [merge_of_mem hv, merge_of_mem hv, hb v hv]
  · rw [merge_of_not_mem hv, merge_of_not_mem hv, he v hv]

theorem merge_merge : merge S (merge S b e) e' = merge S b e' :=
  merge_congr (fun _ hv => merge_of_mem hv) fun _ _ => rfl

theorem merge_update (hv : v ∈ S) (x : α) :
    update (merge S b e) v x = merge S (update b v x) e := by
  funext w
  rcases eq_or_ne w v with rfl | hw
  · rw [update_self, merge_of_mem hv, update_self]
  · rw [update_of_ne hw, merge, merge, update_of_ne hw]

/-- Only the other objects changed. -/
theorem merge_eq_right (h : ∀ v ∈ S, b v = e v) : merge S b e = e :=
  (merge_congr h fun _ _ => rfl).trans (merge_self S e)

variable {C : Code ν α ο ρ κ} {op : ο} {k : κ} {q : (ν → α) × (κ ⊕ ρ)}

theorem Code.Local.keeps (hL : C.Local) (hk : C.At op k) (hs : C.step b k = some q)
    (hv : v ∉ C.locks op) : q.1 v = b v := by
  have h := hL.step op k b b hk
  rw [merge_self, hs] at h
  have hq := congrArg Prod.fst (Option.some.inj h)
  rw [hq]
  exact merge_of_not_mem hv

theorem Code.Local.step_merge (hL : C.Local) (hk : C.At op k) (hs : C.step b k = some q)
    (e : ν → α) : C.step (merge (C.locks op) b e) k = some (merge (C.locks op) q.1 e, q.2) := by
  rw [hL.step op k b e hk, hs]
  rfl

omit [DecidableEq ν] in
theorem Code.Reaches.at (h : C.Reaches a op b k) : C.At op k := by
  induction h with
  | start => exact .start
  | step _ hs ih => exact ih.step hs

/-- A body does not notice what happens to the other objects. -/
theorem Code.Reaches.merge (hL : C.Local) (h : C.Reaches a op b k) (e : ν → α) :
    C.Reaches (merge (C.locks op) a e) op (merge (C.locks op) b e) k := by
  induction h with
  | start => exact .start
  | step h hs ih => exact ih.step (hL.step_merge h.at hs e)

omit [DecidableEq ν] in
/-- A body that ends does so from each of its places. -/
theorem Code.Reaches.ends {r : ρ} (h : C.Reaches a op b k) (he : C.Ends a (C.start op) b' r) :
    C.Ends b k b' r := by
  induction h with
  | start => exact he
  | step _ hs ih =>
      cases ih with
      | done hd =>
          rw [hs] at hd
          cases hd
      | step hs' he' =>
          rw [hs] at hs'
          cases hs'
          exact he'
end

/-! ### Parts of a body

A part of a body that changes one object, with places `μ` of its own. -/

/-- Some accesses lead from one place to another one, or to a result. -/
inductive Runs {μ : Type} (step : α → μ → Option (α × (μ ⊕ ρ))) : α → μ → α → μ ⊕ ρ → Prop
  | step {x y : α} {p : μ} {q : μ ⊕ ρ} (h : step x p = some (y, q)) : Runs step x p y q
  | trans {x y z : α} {p p' : μ} {q : μ ⊕ ρ} (h : Runs step x p y (.inl p'))
      (h' : Runs step y p' z q) : Runs step x p z q

section
variable {μ : Type} {step : α → μ → Option (α × (μ ⊕ ρ))} {x y z : α} {p k : μ} {q : μ ⊕ ρ}

/-- An access that writes. -/
theorem Runs.write (h : step x p = some (y, .inl k)) (h' : Runs step y k z q) :
    Runs step x p z q :=
  .trans (.step h) h'

/-- An access that reads. -/
theorem Runs.read (h : step x p = some (x, .inl k)) (h' : Runs step x k z q) :
    Runs step x p z q :=
  .trans (.step h) h'

variable [DecidableEq ν] {C : Code ν α ο ρ κ} {s a : ν → α} {v : ν} {place : μ → κ} {r : ρ}

/-- How a body goes on after a part of it. -/
def Code.EndsFrom (C : Code ν α ο ρ κ) (place : μ → κ) (b : ν → α) (a : ν → α) (r : ρ) :
    μ ⊕ ρ → Prop
  | .inl p => C.Ends b (place p) a r
  | .inr r' => a = b ∧ r = r'

theorem Runs.endsFrom
    (hstep : ∀ x p, C.step (update s v x) (place p)
      = (step x p).map fun o => (update s v o.1, o.2.map place id))
    (h : Runs step x p y q) (hends : C.EndsFrom place (update s v y) a r q) :
    C.Ends (update s v x) (place p) a r := by
  induction h with
  | @step x y p q h =>
      have hs := hstep x p
      rw [h, Option.map_some] at hs
      cases q with
      | inl p' => exact .step hs hends
      | inr r' =>
          obtain ⟨rfl, rfl⟩ := hends
          exact .done hs
  | trans _ _ ih ih' => exact ih (ih' hends)

/-- A part that leads to a result is a whole body. -/
theorem Runs.ends
    (hstep : ∀ x p, C.step (update s v x) (place p)
      = (step x p).map fun o => (update s v o.1, o.2.map place id))
    (h : Runs step (s v) p y (.inr r)) : C.Ends s (place p) (update s v y) r := by
  have hends := h.endsFrom hstep (a := update s v y) (r := r) ⟨rfl, rfl⟩
  rwa [update_eq_self] at hends
end

/-! ## The machine -/

/-- The place of a thread, with the locks it holds, the last one first, and those it still has to
take. -/
inductive Place (ν ο ρ κ : Type)
  | idle
  | acquiring (op : ο) (held todo : List ν)
  | inside (op : ο) (held : List ν) (k : κ)
  | releasing (held : List ν) (r : ρ)

structure State (ι ν α ο ρ κ : Type) where
  locked : ν → Bool
  objs : ν → α
  place : ι → Place ν ο ρ κ

inductive Action (ι ο : Type)
  | call (t : ι) (op : ο)
  | step (t : ι)

variable [DecidableEq ι]

def State.goto (s : State ι ν α ο ρ κ) (t : ι) (p : Place ν ο ρ κ) : State ι ν α ο ρ κ :=
  { s with place := update s.place t p }

variable [DecidableEq ν]

def State.setLock (s : State ι ν α ο ρ κ) (v : ν) (b : Bool) : State ι ν α ο ρ κ :=
  { s with locked := update s.locked v b }

/-- The next access of a thread. It spins as long as the next lock is taken. -/
def State.advance (C : Code ν α ο ρ κ) (s : State ι ν α ο ρ κ) (t : ι) :
    Option (Option ρ × State ι ν α ο ρ κ) :=
  match s.place t with
  | .idle => none
  | .acquiring op held [] => some (none, s.goto t (.inside op held (C.start op)))
  | .acquiring op held (v :: todo) =>
      if s.locked v then some (none, s)
      else some (none, (s.setLock v true).goto t (.acquiring op (v :: held) todo))
  | .inside op held k =>
      match C.step s.objs k with
      | none => none
      | some (b, .inl k') => some (none, { s with objs := b }.goto t (.inside op held k'))
      | some (b, .inr r) => some (none, { s with objs := b }.goto t (.releasing held r))
  | .releasing [] r => some (some r, s.goto t .idle)
  | .releasing (v :: held) r => some (none, (s.setLock v false).goto t (.releasing held r))

/-- The objects with their locks and their threads. -/
def locking (C : Code ν α ο ρ κ) (init : ν → α) :
    Machine (State ι ν α ο ρ κ) (Action ι ο) (Option ρ) where
  init := ⟨fun _ => false, init, fun _ => .idle⟩
  step s
    | .call t op =>
        match s.place t with
        | .idle => some (none, s.goto t (.acquiring op [] (C.locks op)))
        | _ => none
    | .step t => s.advance C t

/-- The calls and returns of a history. -/
def see : Action ι ο × Option ρ → List (Event ι ο ρ)
  | (.call t op, _) => [.call t op]
  | (.step t, some r) => [.ret t r]
  | (.step _, none) => []

/-! ## Who holds the locks -/

def Place.held : Place ν ο ρ κ → List ν
  | .idle => []
  | .acquiring _ held _ | .inside _ held _ | .releasing held _ => held

/-- The thread has taken the locks of its operation in their order. -/
def Place.Fits (C : Code ν α ο ρ κ) : Place ν ο ρ κ → Prop
  | .idle => True
  | .acquiring op held todo => held.reverse ++ todo = C.locks op
  | .inside op held k => held.reverse = C.locks op ∧ C.At op k
  | .releasing held _ => held.Nodup

structure Inv (C : Code ν α ο ρ κ) (s : State ι ν α ο ρ κ) : Prop where
  locked : ∀ v, s.locked v = true ↔ ∃ t, v ∈ (s.place t).held
  exclusive : ∀ t u v, v ∈ (s.place t).held → v ∈ (s.place u).held → t = u
  fits : ∀ t, (s.place t).Fits C

section
variable {C : Code ν α ο ρ κ} {s s' : State ι ν α ο ρ κ} {t u : ι} {v : ν} {p : Place ν ο ρ κ}
  {op : ο} {held todo : List ν} {k : κ} {r : ρ}

omit [DecidableEq ν] in
@[simp] theorem place_goto_self : (s.goto t p).place t = p := update_self ..

omit [DecidableEq ν] in
theorem place_goto_of_ne (hu : u ≠ t) : (s.goto t p).place u = s.place u := update_of_ne hu ..

omit [DecidableEq ν] in
/-- A thread moves on and keeps its locks. -/
theorem Inv.goto (h : Inv C s) (hp : p.held = (s.place t).held) (hfit : p.Fits C) (b : ν → α) :
    Inv C ({ s with objs := b }.goto t p) := by
  have hheld : ∀ u, (({ s with objs := b }.goto t p).place u).held = (s.place u).held := by
    intro u
    rcases eq_or_ne u t with rfl | hu
    · rw [place_goto_self, hp]
    · rw [place_goto_of_ne hu]
  refine ⟨?_, ?_, ?_⟩
  · intro v
    simp only [hheld]
    exact h.locked v
  · intro u w v
    rw [hheld, hheld]
    exact h.exclusive u w v
  · intro u
    rcases eq_or_ne u t with rfl | hu
    · rwa [place_goto_self]
    · rw [place_goto_of_ne hu]
      exact h.fits u

/-- A lock that is free is taken. -/
theorem Inv.acquire (h : Inv C s) (hpl : s.place t = .acquiring op held (v :: todo))
    (hv : s.locked v = false) :
    Inv C ((s.setLock v true).goto t (.acquiring op (v :: held) todo)) := by
  have hfree : ∀ u, v ∉ (s.place u).held := by
    intro u hu
    rw [(h.locked v).mpr ⟨u, hu⟩] at hv
    cases hv
  have hmem : ∀ u w, w ∈ (((s.setLock v true).goto t (.acquiring op (v :: held) todo)).place u).held
      ↔ (u = t ∧ w = v) ∨ w ∈ (s.place u).held := by
    intro u w
    rcases eq_or_ne u t with rfl | hu
    · simp [Place.held, hpl]
    · rw [place_goto_of_ne hu]
      simp [hu, State.setLock]
  refine ⟨?_, ?_, ?_⟩
  · intro w
    simp only [hmem]
    by_cases hw : w = v
    · subst hw
      simp [State.goto, State.setLock]
    · simp [State.goto, State.setLock, hw, h.locked w]
  · intro u u' w hu hu'
    rw [hmem] at hu hu'
    rcases hu with ⟨rfl, rfl⟩ | hu
    · exact (hu'.resolve_right (hfree u')).1.symm
    · rcases hu' with ⟨rfl, rfl⟩ | hu'
      · exact absurd hu (hfree u)
      · exact h.exclusive u u' w hu hu'
  · intro u
    rcases eq_or_ne u t with rfl | hu
    · have hf := h.fits u
      rw [hpl] at hf
      simpa [Place.Fits] using hf
    · rw [place_goto_of_ne hu]
      exact h.fits u

/-- The last lock is released. -/
theorem Inv.release (h : Inv C s) (hpl : s.place t = .releasing (v :: held) r) :
    Inv C ((s.setLock v false).goto t (.releasing held r)) := by
  have hf := h.fits t
  rw [hpl] at hf
  obtain ⟨hv, hnodup⟩ := List.nodup_cons.mp hf
  have hmem : ∀ u w, w ∈ (((s.setLock v false).goto t (.releasing held r)).place u).held
      ↔ w ∈ (s.place u).held ∧ w ≠ v := by
    intro u w
    rcases eq_or_ne u t with rfl | hu
    · rw [place_goto_self, hpl]
      simp only [Place.held, List.mem_cons]
      constructor
      · exact fun hw => ⟨Or.inr hw, by rintro rfl; exact hv hw⟩
      · exact fun ⟨hw, hne⟩ => hw.resolve_left hne
    · rw [place_goto_of_ne hu]
      refine ⟨fun hw => ⟨hw, ?_⟩, And.left⟩
      rintro rfl
      exact hu (h.exclusive u t w hw (by simp [hpl, Place.held]))
  refine ⟨?_, ?_, ?_⟩
  · intro w
    simp only [hmem]
    by_cases hw : w = v
    · subst hw
      simp [State.goto, State.setLock]
    · simp [State.goto, State.setLock, hw, h.locked w]
  · intro u u' w hu hu'
    exact h.exclusive u u' w ((hmem u w).mp hu).1 ((hmem u' w).mp hu').1
  · intro u
    rcases eq_or_ne u t with rfl | hu
    · rwa [place_goto_self]
    · rw [place_goto_of_ne hu]
      exact h.fits u

theorem Inv.advance {o : Option ρ} (hL : C.Local) (h : Inv C s)
    (hs : s.advance C t = some (o, s')) : Inv C s' := by
  have hf := h.fits t
  revert hs
  unfold State.advance
  split
  next => simp
  next op held hpl =>
      rintro ⟨⟩
      rw [hpl] at hf
      refine h.goto (p := .inside op held (C.start op)) (by rw [hpl]; rfl) ⟨?_, .start⟩ s.objs
      simpa [Place.Fits] using hf
  next op held v todo hpl =>
      split
      next =>
        rintro ⟨⟩
        exact h
      next hv =>
        rintro ⟨⟩
        exact h.acquire hpl (by simpa using hv)
  next op held k hpl =>
      rw [hpl] at hf
      split
      next => simp
      next b k' hst =>
        rintro ⟨⟩
        exact h.goto (p := .inside op held k') (by rw [hpl]; rfl) ⟨hf.1, hf.2.step hst⟩ b
      next b r hst =>
        rintro ⟨⟩
        refine h.goto (p := .releasing held r) (by rw [hpl]; rfl) ?_ b
        rw [Place.Fits, ← List.nodup_reverse, hf.1]
        exact hL.nodup op
  next r hpl =>
      rintro ⟨⟩
      exact h.goto (p := .idle) (by rw [hpl]; rfl) trivial s.objs
  next v held r hpl =>
      rintro ⟨⟩
      exact h.release hpl

theorem Inv.step {a : Action ι ο} {o : Option ρ} {init : ν → α} (hL : C.Local) (h : Inv C s)
    (hs : (locking C init).step s a = some (o, s')) : Inv C s' := by
  cases a with
  | call t op =>
      simp only [locking] at hs
      split at hs
      next hpl =>
        cases hs
        exact h.goto (p := .acquiring op [] (C.locks op)) (by rw [hpl]; rfl) rfl s.objs
      next => cases hs
  | step t => exact h.advance hL hs

theorem inv_init (C : Code ν α ο ρ κ) (init : ν → α) :
    Inv C (locking C init : Machine (State ι ν α ο ρ κ) _ _).init :=
  ⟨by simp [locking, Place.held], by simp [locking, Place.held], fun _ => trivial⟩

theorem inv_of_trace {tr : List (Action ι ο × Option ρ)} {init : ν → α} (hL : C.Local)
    (ht : (locking C init).Trace tr s) : Inv C s :=
  ht.stateInv (Inv C) (inv_init C init) fun _ _ _ _ h hs => h.step hL hs
end

/-! ## Linearizability -/

/-- An operation takes effect at the last access of its body. -/
def Place.status : Place ν ο ρ κ → Status ο ρ
  | .idle => .idle
  | .acquiring op _ _ | .inside op _ _ => .pending op
  | .releasing _ r => .done r

/-- The atomic objects: what is not in use is as in the state, and a body that runs has begun with
what it has locked. -/
structure Sim (C : Code ν α ο ρ κ) (V : (ν → α) → Prop) (s : State ι ν α ο ρ κ)
    (c : Config ι (ν → α) ο ρ) : Prop where
  inv : Inv C s
  valid : V c.obj
  status : ∀ t, c.status t = (s.place t).status
  inside : ∀ t op held k, s.place t = .inside op held k →
    C.Reaches c.obj op (merge (C.locks op) s.objs c.obj) k
  outside : ∀ v, (∀ t op held k, s.place t = .inside op held k → v ∉ C.locks op) →
    s.objs v = c.obj v

section
variable {C : Code ν α ο ρ κ} {O : Object (ν → α) ο ρ} {V : (ν → α) → Prop}
  {s s' : State ι ν α ο ρ κ} {c : Config ι (ν → α) ο ρ} {t u : ι} {v : ν} {p : Place ν ο ρ κ}
  {op : ο} {held : List ν} {k : κ} {r : ρ}

omit [DecidableEq ν] in
theorem status_goto (h : ∀ u, c.status u = (s.place u).status) (p : Place ν ο ρ κ) (u : ι) :
    (c.goto t p.status).status u = ((s.goto t p).place u).status := by
  rcases eq_or_ne u t with rfl | hu
  · simp [Config.goto]
  · simp [Config.goto, place_goto_of_ne hu, hu, h u]

/-- A thread moves on outside of the body. -/
theorem Sim.goto (h : Sim C V s c) (hinv : Inv C s') (hobjs : s'.objs = s.objs)
    (hplace : s'.place = (s.goto t p).place) (hp : ∀ op held k, p ≠ .inside op held k)
    (hold : ∀ op held k, s.place t ≠ .inside op held k) : Sim C V s' (c.goto t p.status) := by
  have hin : ∀ u op held k, s'.place u = .inside op held k ↔ s.place u = .inside op held k := by
    intro u op held k
    rw [hplace]
    rcases eq_or_ne u t with rfl | hu
    · rw [place_goto_self]
      exact iff_of_false (hp op held k) (hold op held k)
    · rw [place_goto_of_ne hu]
  refine ⟨hinv, h.valid, fun u => ?_, ?_, ?_⟩
  · rw [hplace]
    exact status_goto h.status p u
  · intro u op held k hu
    rw [hobjs]
    exact h.inside u op held k ((hin u op held k).mp hu)
  · intro v hv
    rw [hobjs]
    exact h.outside v fun u op held k hu => hv u op held k ((hin u op held k).mpr hu)

omit [DecidableEq ι] [DecidableEq ν] in
/-- Two bodies that run at the same time lock different objects. -/
theorem Inv.disjoint {op' : ο} {held' : List ν} {k' : κ} (h : Inv C s)
    (ht : s.place t = .inside op held k) (hu : s.place u = .inside op' held' k') (hne : u ≠ t)
    (hv : v ∈ C.locks op') : v ∉ C.locks op := by
  have hft := h.fits t
  have hfu := h.fits u
  rw [ht] at hft
  rw [hu] at hfu
  intro hv'
  refine hne (h.exclusive u t v ?_ ?_)
  · rw [hu, Place.held, ← List.mem_reverse, hfu.1]
    exact hv
  · rw [ht, Place.held, ← List.mem_reverse, hft.1]
    exact hv'

theorem Sim.begin (h : Sim C V s c) (hpl : s.place t = .acquiring op held [])
    (hinv : Inv C (s.goto t (.inside op held (C.start op)))) :
    Sim C V (s.goto t (.inside op held (C.start op))) c := by
  have hf := h.inv.fits t
  rw [hpl, Place.Fits, List.append_nil] at hf
  -- nobody else is using what the thread has locked
  have hout : ∀ v ∈ C.locks op, s.objs v = c.obj v := by
    intro v hv
    refine h.outside v fun u op' held' k' hu hv' => ?_
    have hfu := h.inv.fits u
    rw [hu] at hfu
    have htu := h.inv.exclusive t u v (by rwa [hpl, Place.held, ← List.mem_reverse, hf])
      (by rwa [hu, Place.held, ← List.mem_reverse, hfu.1])
    rw [← htu, hpl] at hu
    cases hu
  refine ⟨hinv, h.valid, fun u => ?_, ?_, ?_⟩
  · rcases eq_or_ne u t with rfl | hu
    · rw [place_goto_self, h.status, hpl]
      rfl
    · rw [place_goto_of_ne hu, h.status]
  · intro u op' held' k' hu
    rcases eq_or_ne u t with rfl | hne
    · rw [place_goto_self] at hu
      cases hu
      rw [show (s.goto u _).objs = s.objs from rfl, merge_eq_right hout]
      exact .start
    · rw [place_goto_of_ne hne] at hu
      exact h.inside u op' held' k' hu
  · intro v hv
    refine h.outside v fun u op' held' k' hu => ?_
    refine hv u op' held' k' ?_
    rwa [place_goto_of_ne]
    rintro rfl
    rw [hpl] at hu
    cases hu

/-- One access of a body. -/
theorem Sim.body {b : ν → α} {k' : κ} (hL : C.Local) (h : Sim C V s c)
    (hpl : s.place t = .inside op held k) (hst : C.step s.objs k = some (b, .inl k'))
    (hinv : Inv C ({ s with objs := b }.goto t (.inside op held k'))) :
    Sim C V ({ s with objs := b }.goto t (.inside op held k')) c := by
  have hf := h.inv.fits t
  rw [hpl] at hf
  have hkeep : ∀ v, v ∉ C.locks op → b v = s.objs v := fun v hv => hL.keeps hf.2 hst hv
  refine ⟨hinv, h.valid, fun u => ?_, ?_, ?_⟩
  · rcases eq_or_ne u t with rfl | hu
    · rw [place_goto_self, h.status, hpl]
      rfl
    · rw [place_goto_of_ne hu, h.status]
  · intro u op' held' k'' hu
    rcases eq_or_ne u t with rfl | hne
    · rw [place_goto_self] at hu
      cases hu
      exact (h.inside u op held k hpl).step (hL.step_merge hf.2 hst c.obj)
    · rw [place_goto_of_ne hne] at hu
      have hm : merge (C.locks op') b c.obj = merge (C.locks op') s.objs c.obj :=
        merge_congr (fun v hv => hkeep v (h.inv.disjoint hpl hu hne hv)) fun _ _ => rfl
      exact hm ▸ h.inside u op' held' k'' hu
  · intro v hv
    have hvt : v ∉ C.locks op := hv t op held k' place_goto_self
    refine (hkeep v hvt).trans ?_
    refine h.outside v fun u op' held' k'' hu => ?_
    rcases eq_or_ne u t with rfl | hne
    · rw [hpl] at hu
      cases hu
      exact hvt
    · exact hv u op' held' k'' (by rwa [place_goto_of_ne hne])

/-- The last access of a body: the operation takes effect. -/
theorem Sim.effect {b : ν → α} (hL : C.Local) (hI : C.Implements O V) (h : Sim C V s c)
    (hpl : s.place t = .inside op held k) (hst : C.step s.objs k = some (b, .inr r))
    (hinv : Inv C ({ s with objs := b }.goto t (.releasing held r))) :
    O.apply c.obj op = some (r, merge (C.locks op) b c.obj) ∧
      Sim C V ({ s with objs := b }.goto t (.releasing held r))
        ({ c with obj := merge (C.locks op) b c.obj }.goto t (.done r)) := by
  have hf := h.inv.fits t
  rw [hpl] at hf
  have hkeep : ∀ v, v ∉ C.locks op → b v = s.objs v := fun v hv => hL.keeps hf.2 hst hv
  obtain ⟨r', b', happ, hvalid, hends⟩ := hI.ends c.obj op h.valid
  have hlast := (h.inside t op held k hpl).ends hends
  have hstep := hL.step_merge hf.2 hst c.obj
  obtain ⟨rfl, rfl⟩ : merge (C.locks op) b c.obj = b' ∧ r = r' := by
    cases hlast with
    | done hd =>
        rw [hstep] at hd
        cases hd
        exact ⟨rfl, rfl⟩
    | step hd _ =>
        rw [hstep] at hd
        cases hd
  refine ⟨happ, hinv, hvalid, ?_, ?_, ?_⟩
  · exact status_goto (s := { s with objs := b }) h.status (.releasing held r)
  · intro u op' held' k' hu
    rcases eq_or_ne u t with rfl | hne
    · rw [place_goto_self] at hu
      cases hu
    · rw [place_goto_of_ne hne] at hu
      have hdis : ∀ v ∈ C.locks op', v ∉ C.locks op := fun v hv => h.inv.disjoint hpl hu hne hv
      -- the body of the other thread has not noticed
      have hr := (h.inside u op' held' k' hu).merge hL (merge (C.locks op) b c.obj)
      rw [merge_merge, merge_eq_right fun v hv => (merge_of_not_mem (hdis v hv)).symm] at hr
      have hm : merge (C.locks op') s.objs (merge (C.locks op) b c.obj)
          = merge (C.locks op') b (merge (C.locks op) b c.obj) :=
        merge_congr (fun v hv => (hkeep v (hdis v hv)).symm) fun _ _ => rfl
      rw [hm] at hr
      exact hr
  · intro v hv
    show b v = merge (C.locks op) b c.obj v
    by_cases hvt : v ∈ C.locks op
    · rw [merge_of_mem hvt]
    · rw [merge_of_not_mem hvt, hkeep v hvt]
      refine h.outside v fun u op' held' k' hu => ?_
      rcases eq_or_ne u t with rfl | hne
      · rw [hpl] at hu
        cases hu
        exact hvt
      · exact hv u op' held' k' (by rwa [place_goto_of_ne hne])

theorem Sim.advance {o : Option ρ} (hL : C.Local) (hI : C.Implements O V) (h : Sim C V s c)
    (hs : s.advance C t = some (o, s')) :
    ∃ c', O.Moves c (see (.step t, o)) c' ∧ Sim C V s' c' := by
  have hinv := h.inv.advance hL hs
  have hst := h.status t
  revert hs
  unfold State.advance
  split
  next => simp
  next op held hpl =>
      rintro ⟨⟩
      exact ⟨c, .stay, h.begin hpl hinv⟩
  next op held v todo hpl =>
      split
      next =>
        rintro ⟨⟩
        exact ⟨c, .stay, h⟩
      next hv =>
        rintro ⟨⟩
        rw [hpl] at hst
        exact ⟨_, .stay_at hst, h.goto (p := .acquiring op (v :: held) todo) hinv rfl rfl
          (by simp) (by simp [hpl])⟩
  next op held k hpl =>
      rw [hpl] at hst
      split
      next => simp
      next b k' hbody =>
        rintro ⟨⟩
        exact ⟨c, .stay, h.body hL hpl hbody hinv⟩
      next b r hbody =>
        rintro ⟨⟩
        obtain ⟨happ, hsim⟩ := h.effect hL hI hpl hbody hinv
        exact ⟨_, .effect t .stay hst happ, hsim⟩
  next r hpl =>
      rintro ⟨⟩
      rw [hpl] at hst
      exact ⟨_, .ret t .stay hst, h.goto hinv rfl rfl (by simp) (by simp [hpl])⟩
  next v held r hpl =>
      rintro ⟨⟩
      rw [hpl] at hst
      exact ⟨_, .stay_at hst, h.goto (p := .releasing held r) hinv rfl rfl (by simp)
        (by simp [hpl])⟩

theorem Sim.step {a : Action ι ο} {o : Option ρ} (hL : C.Local) (hI : C.Implements O V)
    (h : Sim C V s c) (hs : (locking C O.init).step s a = some (o, s')) :
    ∃ c', O.Moves c (see (a, o)) c' ∧ Sim C V s' c' := by
  cases a with
  | call t op =>
      have hinv := h.inv.step hL hs
      have hst := h.status t
      simp only [locking] at hs
      split at hs
      next hpl =>
        cases hs
        rw [hpl] at hst
        exact ⟨_, .call t op .stay hst, h.goto hinv rfl rfl (by simp) (by simp [hpl])⟩
      next => cases hs
  | step t => exact h.advance hL hI hs

theorem sim_of_trace {tr : List (Action ι ο × Option ρ)} (hL : C.Local) (hI : C.Implements O V)
    (ht : (locking C O.init).Trace tr s) :
    ∃ c, O.Moves O.start (tr.flatMap see) c ∧ Sim C V s c := by
  refine linearize (C := fun _ _ => True) see (fun _ s c => Sim C V s c) ?_ ?_ ht
    fun _ _ _ _ _ => trivial
  · exact ⟨inv_init C O.init, hI.init, fun _ => rfl, fun _ _ _ _ hp => (nomatch hp),
      fun _ _ => rfl⟩
  · exact fun tr s c a o s' _ _ _ h hs => h.step hL hI hs

/-- **Two-phase locking is linearizable.** -/
theorem two_phase_linearizable {tr : List (Action ι ο × Option ρ)} (hL : C.Local)
    (hI : C.Implements O V) (ht : (locking C O.init).Trace tr s) :
    Linearizable O (tr.flatMap see) := by
  obtain ⟨c, hm, -⟩ := sim_of_trace hL hI ht
  exact ⟨c, hm⟩
end

end TwoPhase
