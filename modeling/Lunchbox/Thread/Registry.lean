import Lunchbox.Thread.Cancel
import Mathlib.Data.Finset.Basic

set_option autoImplicit false

/-! # The registry of threads

Every child inserts its id in the global set `_threads` before it calls `init`, and erases it after
`run` has returned; `_dumpAll` sends a signal to every thread in the set. A child whose `init`
returns false, which calls `exit` in `run`, or which is canceled in between, ends without erasing
its id. The set names only threads that exist, in all states of a run, exactly if no child ends
with its id in the set (`onlyLive_iff`); and none does if `init` returns true, `run` returns, and
no child is canceled in between (`registry_live`).

The model is any number of thread objects, each with its owner and its children as in
`Thread/Model.lean`, and the set. Ids are the values of `pthread_t` that the system chooses: it may
use the id of a thread that has ended again.
-/

namespace Lunchbox.Thread.Registry

open StateMachine Function

/-! ## The model -/

/-- Which of its accesses to `_threads` a child has made. -/
inductive Progress
  | fresh
  | inserted
  /-- `run` has returned, and the id is not erased yet -/
  | erasing
  | erased
  deriving DecidableEq

namespace Progress

/-- The child has inserted its id and has not erased it. -/
def Listed : Progress → Prop
  | .inserted | .erasing => True
  | .fresh | .erased => False

instance : DecidablePred Listed
  | .inserted | .erasing => isTrue trivial
  | .fresh | .erased => isFalse False.elim

/-- The id is inserted before `init` is called, and erased between the return of `run` and the
write of `STATE_STOPPING` in `exit`. -/
def Allows (p : Progress) : ChildAction → Prop
  | .initReturn _ => p ≠ .fresh
  | .step => p ≠ .erasing
  | _ => True

instance (p : Progress) : DecidablePred p.Allows
  | .initReturn _ => inferInstanceAs (Decidable (p ≠ .fresh))
  | .step => inferInstanceAs (Decidable (p ≠ .erasing))
  | .work | .callJoin | .leave _ | .cancel => isTrue trivial

/-- Only the return of `run` leads to the erasure. -/
def next (p : Progress) : ChildAction → Progress
  | .leave false => .erasing
  | _ => p

end Progress

def Allowed (p : Nat → Progress) : Thread.Action → Prop
  | .child k a => (p k).Allows a
  | _ => True

instance (p : Nat → Progress) : DecidablePred (Allowed p)
  | .child k a => inferInstanceAs (Decidable ((p k).Allows a))
  | .call _ | .owner _ => isTrue trivial

def advance (p : Nat → Progress) : Thread.Action → Nat → Progress
  | .child k a => update p k ((p k).next a)
  | _ => p

structure State (ι τ : Type) where
  object : ι → Thread.State
  progress : ι → Nat → Progress
  /-- `_threads` -/
  threads : Finset τ

inductive Action (ι : Type)
  | thread (i : ι) (a : Thread.Action)
  /-- `_threads->insert( _impl->id )` -/
  | insert (i : ι) (k : Nat)
  /-- `_threads->erase( _impl->id )` -/
  | erase (i : ι) (k : Nat)

variable {ι τ : Type}

/-- The objects and their children take their steps in any order; `pthread i id` is the value of
the id in the object `i`. -/
def registry [DecidableEq ι] [DecidableEq τ] (pthread : ι → Option Pthread → τ) :
    Machine (State ι τ) (Action ι) Output where
  init := ⟨fun _ => thread.init, fun _ _ => .fresh, ∅⟩
  step s
    | .thread i a =>
        if Allowed (s.progress i) a then
          (thread.step (s.object i) a).map fun r =>
            (r.1, { s with
              object := update s.object i r.2
              progress := update s.progress i (advance (s.progress i) a) })
        else none
    | .insert i k =>
        if (s.object i).child k = .init ∧ s.progress i k = .fresh then
          some (.silent, { s with
            threads := insert (pthread i (s.object i).impl.id) s.threads
            progress := update s.progress i (update (s.progress i) k .inserted) })
        else none
    | .erase i k =>
        if (s.object i).child k = .exit ∧ s.progress i k = .erasing then
          some (.silent, { s with
            threads := s.threads.erase (pthread i (s.object i).impl.id)
            progress := update s.progress i (update (s.progress i) k .erased) })
        else none

/-- The ids that `_dumpAll` sends `SIGUSR1` to. -/
def dumpAll (s : State ι τ) : Finset τ := s.threads

/-- The child exists. -/
def Live (c : Child) : Prop := c ≠ .unborn ∧ c ≠ .ended

variable (pthread : ι → Option Pthread → τ)

/-- Only threads that exist are signalled. The id of a child that has ended is in the set only if
the system has given it to another one. -/
def OnlyLive (s : State ι τ) : Prop :=
  ∀ t ∈ dumpAll s, ∃ i k, pthread i (some (.child k)) = t ∧ Live ((s.object i).child k)

/-! ## The conditions -/

/-- The steps that end a child: `pthread_exit`, or a cancellation that is honoured. -/
def Ends (c : Child) : ChildAction → Prop
  | .cancel => True
  | .step => c = .terminate
  | _ => False

instance (c : Child) : DecidablePred (Ends c)
  | .cancel => isTrue trivial
  | .step => inferInstanceAs (Decidable (c = .terminate))
  | .initReturn _ | .work | .callJoin | .leave _ => isFalse False.elim

/-- A child ends before it has inserted its id, or after `run` has returned and it has erased it. -/
def EndsUnlisted (s : State ι τ) : Action ι → Prop
  | .thread i (.child k a) => Ends ((s.object i).child k) a → ¬ (s.progress i k).Listed
  | _ => True

instance (s : State ι τ) : DecidablePred (EndsUnlisted s)
  | .thread _ (.child _ _) => inferInstanceAs (Decidable (_ → _))
  | .thread _ (.call _) | .thread _ (.owner _) | .insert _ _ | .erase _ _ => isTrue trivial

/-- Where a cycle was canceled, `join` waits for its child. -/
def Awaited (s : State ι τ) : Action ι → Prop
  | .thread i a => Awaits (s.object i) a
  | _ => True

instance (s : State ι τ) : DecidablePred (Awaited s)
  | .thread i a => inferInstanceAs (Decidable (Awaits (s.object i) a))
  | .insert _ _ | .erase _ _ => isTrue trivial

/-- What the system guarantees: `pthread_create` makes a thread with the id of no thread that
exists. -/
def NewId (s : State ι τ) : Action ι → Prop
  | .thread i (.owner .success) =>
      ∀ n, (s.object i).owner = .create n → ∀ j m, Live ((s.object j).child m) →
        pthread j (some (.child m)) ≠ pthread i (some (.child (s.object i).cycle))
  | _ => True

/-! ## What a step does to the children -/

/-- Where a child and its accesses to the set can be after a step `a` of the object `i`. -/
inductive Evolves (s : State ι τ) (i : ι) (a : Thread.Action) (j : ι) (m : Nat) :
    Child → Progress → Prop
  | same : Evolves s i a j m ((s.object j).child m) (s.progress j m)
  | created (n : Nat) (ho : (s.object i).owner = .create n) (ha : a = .owner .success) (hj : j = i)
      (hm : m = (s.object i).cycle) : Evolves s i a j m .setId (s.progress j m)
  | moved {b : ChildAction} {out : Output} {impl : Impl} {c : Child} (hj : j = i)
      (ha : a = .child m b) (hallows : (s.progress j m).Allows b)
      (hmoves : Moves m ((s.object j).canceled m) (s.object j).impl ((s.object j).child m) b out
        impl c) : Evolves s i a j m c ((s.progress j m).next b)

variable {pthread} {s s' : State ι τ} {i : ι} {k : Nat} {out : Output}

/-! ## The invariant -/

/-- How far the accesses to the set are, by where the child is. -/
def Agrees (p : Progress) : Child → Prop
  | .unborn | .setId => p = .fresh
  | .init => p = .fresh ∨ p = .inserted
  | .setState _ | .run | .join _ => p = .inserted
  | .exit | .terminate | .ended => True

variable (pthread) in
/-- The set consists of the ids of the children that have inserted and not erased them, they are
children that exist, and these have ids of their own. -/
structure Inv (s : State ι τ) : Prop where
  object : ∀ i, Thread.Inv (s.object i)
  agrees : ∀ i k, Agrees (s.progress i k) ((s.object i).child k)
  listed : ∀ t, t ∈ s.threads ↔ ∃ i k, pthread i (some (.child k)) = t ∧ (s.progress i k).Listed
  live : ∀ i k, (s.progress i k).Listed → Live ((s.object i).child k)
  distinct : ∀ i k j m, Live ((s.object i).child k) → Live ((s.object j).child m) →
    pthread i (some (.child k)) = pthread j (some (.child m)) → i = j ∧ k = m

theorem Inv.onlyLive (h : Inv pthread s) : OnlyLive pthread s := by
  intro t ht
  obtain ⟨i, k, hid, hl⟩ := (h.listed t).mp ht
  exact ⟨i, k, hid, h.live i k hl⟩

section Children

variable {canceled : Bool} {impl impl' : Impl} {c c' : Child} {b : ChildAction} {p : Progress}

theorem agrees_next (hm : Moves k canceled impl c b out impl' c') (ha : Agrees p c)
    (hallows : p.Allows b) : Agrees (p.next b) c' := by
  cases hm with
  | initReturn => exact ha.resolve_left hallows
  | setId => exact Or.inl ha
  | ready | work | callJoin | goto | ret => exact ha
  | failed | leave | exit | terminate | cancel => trivial

theorem listed_next (hm : Moves k canceled impl c b out impl' c') (ha : Agrees p c) :
    (p.next b).Listed ↔ p.Listed := by
  cases hm with
  | leave byExit =>
      have hp : p = .inserted := ha
      subst hp
      cases byExit <;> rfl
  | _ => rfl

theorem live_of_moves (hm : Moves k canceled impl c b out impl' c') : Live c := by
  cases hm with
  | cancel _ hu he => exact ⟨hu, he⟩
  | _ => exact ⟨Child.noConfusion, Child.noConfusion⟩

/-- A child exists after its step unless the step ends it. -/
theorem live_or_ends (hm : Moves k canceled impl c b out impl' c') :
    Live c' ∧ ¬ Ends c b ∨ c' = .ended ∧ Ends c b := by
  cases hm with
  | terminate => exact Or.inr ⟨rfl, rfl⟩
  | cancel => exact Or.inr ⟨rfl, trivial⟩
  | initReturn | work | callJoin | leave =>
      exact Or.inl ⟨⟨Child.noConfusion, Child.noConfusion⟩, False.elim⟩
  | setId | ready | failed | goto | ret | exit =>
      exact Or.inl ⟨⟨Child.noConfusion, Child.noConfusion⟩, Child.noConfusion⟩

end Children

namespace Evolves

variable {a : Thread.Action} {j : ι} {m : Nat} {c : Child} {p : Progress}

/-- A step of an object does not change whether the id of a child is in the set. -/
theorem listed (h : Evolves s i a j m c p)
    (ha : Agrees (s.progress j m) ((s.object j).child m)) :
    p.Listed ↔ (s.progress j m).Listed := by
  cases h with
  | same => rfl
  | created => rfl
  | moved _ _ _ hm => exact listed_next hm ha

/-- A child that exists has existed before, or it is the one that was created. -/
theorem existed (h : Evolves s i a j m c p) (hl : Live c) :
    Live ((s.object j).child m) ∨ j = i ∧ m = (s.object i).cycle ∧ a = .owner .success ∧
      ∃ n, (s.object i).owner = .create n := by
  cases h with
  | same => exact Or.inl hl
  | created n ho ha hj hm => exact Or.inr ⟨hj, hm, ha, n, ho⟩
  | moved _ _ _ hm => exact Or.inl (live_of_moves hm)

theorem agrees (h : Evolves s i a j m c p) (hinv : Thread.Inv (s.object i))
    (ha : Agrees (s.progress j m) ((s.object j).child m)) : Agrees p c := by
  cases h with
  | same => exact ha
  | created n ho _ hj hm =>
      subst hj hm
      have hallows := hinv.current.owner
      rw [ho] at hallows
      rw [hallows.2.1] at ha
      exact ha
  | moved _ _ hall hm => exact agrees_next hm ha hall

/-- A child with its id in the set goes on existing, if it does not end that way. -/
theorem live (h : Evolves s i a j m c p) (hends : EndsUnlisted s (.thread i a))
    (hl : (s.progress j m).Listed) (hlive : Live ((s.object j).child m)) : Live c := by
  cases h with
  | same => exact hlive
  | created => exact ⟨Child.noConfusion, Child.noConfusion⟩
  | moved hj ha _ hm =>
      subst hj ha
      rcases live_or_ends hm with ⟨hlive', -⟩ | ⟨-, he⟩
      · exact hlive'
      · exact absurd hl (hends he)

end Evolves

/-- A child between its first write and its last one has its id in its object. -/
theorem Inv.id_eq (h : Inv pthread s) (hquiet : ¬ ((s.object i).child k).Quiet)
    (hset : (s.object i).child k ≠ .setId) : (s.object i).impl.id = some (.child k) := by
  have hinv := h.object i
  have hk : k = (s.object i).cycle := by
    rcases Nat.lt_trichotomy k (s.object i).cycle with hlt | heq | hgt
    · exact absurd (hinv.earlier k hlt) hquiet
    · exact heq
    · rw [hinv.later k hgt] at hquiet
      exact absurd trivial hquiet
  subst hk
  refine hinv.current.id (fun hu => ?_) hset
  rw [hu] at hquiet
  exact hquiet trivial

/-! ## Steps -/

variable [DecidableEq ι]

theorem evolves {a : Thread.Action} {t : Thread.State} (hallowed : Allowed (s.progress i) a)
    (hs : thread.step (s.object i) a = some (out, t)) (j : ι) (m : Nat) :
    Evolves s i a j m ((update s.object i t j).child m)
      (update s.progress i (advance (s.progress i) a) j m) := by
  by_cases hj : j = i
  swap
  · rw [update_of_ne hj, update_of_ne hj]
    exact .same
  subst hj
  rw [update_self, update_self]
  cases a with
  | call c =>
      obtain ⟨-, he⟩ := Option.ite_none_right_eq_some.mp hs
      cases he
      cases c <;> exact .same
  | child k b =>
      obtain ⟨impl, c, hmoves, rfl⟩ := child_step hs
      by_cases hm : m = k
      · subst hm
        simp only [advance, update_self]
        exact .moved rfl rfl hallowed hmoves
      · simp only [advance, update_of_ne hm]
        exact .same
  | owner error =>
      obtain ⟨owner, ho, hmoves⟩ := ownerMoves_of_step hs
      cases hmoves with
      | created he =>
          by_cases hm : m = (s.object j).cycle
          · subst hm
            simp only [advance, update_self]
            exact .created _ ho (by rw [he]) rfl rfl
          · simp only [advance, update_of_ne hm]
            exact .same
      | _ => exact .same

/-- The other objects are not touched. -/
theorem objects_step {a : Thread.Action} {t : Thread.State} (h : ∀ j, Thread.Inv (s.object j))
    (hs : thread.step (s.object i) a = some (out, t)) (hawaits : Awaits (s.object i) a) (j : ι) :
    Thread.Inv (update s.object i t j) := by
  by_cases hj : j = i
  · subst hj
    rw [update_self]
    exact (h j).step hawaits hs
  · rw [update_of_ne hj]
    exact h j

theorem update_progress (f : ι → Nat → Progress) (p : Progress) (j : ι) (m : Nat) :
    update f i (update (f i) k p) j m = if j = i ∧ m = k then p else f j m := by
  by_cases hj : j = i
  · subst hj
    by_cases hm : m = k
    · simp [hm]
    · simp [hm]
  · simp [hj]

namespace Inv

theorem thread_step (h : Inv pthread s) {a : Thread.Action} {t : Thread.State}
    (hallowed : Allowed (s.progress i) a) (hs : thread.step (s.object i) a = some (out, t))
    (hawaits : Awaits (s.object i) a) (hnew : NewId pthread s (.thread i a))
    (hends : EndsUnlisted s (.thread i a)) :
    Inv pthread { s with
      object := update s.object i t
      progress := update s.progress i (advance (s.progress i) a) } := by
  have hev := evolves hallowed hs
  have hlisted := fun j m => (hev j m).listed (h.agrees j m)
  refine ⟨objects_step h.object hs hawaits, fun j m => (hev j m).agrees (h.object i) (h.agrees j m),
    fun t => ?_, fun j m hl => ?_, ?_⟩
  · simp only [hlisted]
    exact h.listed t
  · rw [hlisted] at hl
    exact (hev j m).live hends hl (h.live j m hl)
  · -- the new child is the only one that may have come to exist, and its id is a new one
    intro j m j' m' hl hl' hid
    rcases (hev j m).existed hl with h1 | ⟨rfl, rfl, ha, n, ho⟩
    · rcases (hev j' m').existed hl' with h2 | ⟨rfl, rfl, rfl, n, ho⟩
      · exact h.distinct j m j' m' h1 h2 hid
      · exact absurd hid (hnew n ho j m h1)
    · rcases (hev j' m').existed hl' with h2 | ⟨rfl, rfl, -⟩
      · subst ha
        exact absurd hid.symm (hnew n ho j' m' h2)
      · exact ⟨rfl, rfl⟩

/-- A child makes an access to the set. -/
theorem access (h : Inv pthread s) {p : Progress} {threads : Finset τ}
    (hagrees : Agrees p ((s.object i).child k)) (hlive : Live ((s.object i).child k))
    (hthreads : ∀ t, t ∈ threads ↔ ∃ j m, pthread j (some (.child m)) = t ∧
      (if j = i ∧ m = k then p else s.progress j m).Listed) :
    Inv pthread { s with
      threads := threads, progress := update s.progress i (update (s.progress i) k p) } := by
  refine ⟨h.object, fun j m => ?_, fun t => ?_, fun j m hl => ?_, h.distinct⟩
  · simp only [update_progress]
    split_ifs with hjm
    · rw [hjm.1, hjm.2]
      exact hagrees
    · exact h.agrees j m
  · simp only [update_progress]
    exact hthreads t
  · simp only [update_progress] at hl
    split_ifs at hl with hjm
    · rw [hjm.1, hjm.2]
      exact hlive
    · exact h.live j m hl

variable [DecidableEq τ]

theorem insert_step (h : Inv pthread s) (hc : (s.object i).child k = .init) :
    Inv pthread { s with
      threads := insert (pthread i (s.object i).impl.id) s.threads
      progress := update s.progress i (update (s.progress i) k .inserted) } := by
  have hid : (s.object i).impl.id = some (.child k) := by
    refine h.id_eq ?_ ?_ <;> rw [hc]
    · exact False.elim
    · exact Child.noConfusion
  refine h.access ?_ ?_ fun t => ?_
  · rw [hc]
    exact Or.inr rfl
  · rw [hc]
    exact ⟨Child.noConfusion, Child.noConfusion⟩
  rw [Finset.mem_insert, hid, h.listed]
  constructor
  · rintro (rfl | ⟨j, m, hjm, hl⟩)
    · exact ⟨i, k, rfl, by simp [Progress.Listed]⟩
    · refine ⟨j, m, hjm, ?_⟩
      split_ifs
      · trivial
      · exact hl
  · rintro ⟨j, m, hjm, hl⟩
    split_ifs at hl with he
    · rw [he.1, he.2] at hjm
      exact Or.inl hjm.symm
    · exact Or.inr ⟨j, m, hjm, hl⟩

theorem erase_step (h : Inv pthread s) (hc : (s.object i).child k = .exit) :
    Inv pthread { s with
      threads := s.threads.erase (pthread i (s.object i).impl.id)
      progress := update s.progress i (update (s.progress i) k .erased) } := by
  have hid : (s.object i).impl.id = some (.child k) := by
    refine h.id_eq ?_ ?_ <;> rw [hc]
    · exact False.elim
    · exact Child.noConfusion
  have hlive : Live ((s.object i).child k) := by
    rw [hc]
    exact ⟨Child.noConfusion, Child.noConfusion⟩
  refine h.access ?_ hlive fun t => ?_
  · rw [hc]
    trivial
  rw [Finset.mem_erase, hid, h.listed]
  constructor
  · rintro ⟨hne, j, m, hjm, hl⟩
    refine ⟨j, m, hjm, ?_⟩
    split_ifs with he
    · rw [he.1, he.2] at hjm
      exact absurd hjm.symm hne
    · exact hl
  · -- no other child in the set has the same id
    rintro ⟨j, m, rfl, hl⟩
    split_ifs at hl with he
    · exact hl.elim
    · exact ⟨fun heq => he (h.distinct j m i k (h.live j m hl) hlive heq), j, m, rfl, hl⟩

end Inv

variable [DecidableEq τ]

/-- The steps, one by one. -/
inductive Step (pthread : ι → Option Pthread → τ) (s : State ι τ) :
    Action ι → Output → State ι τ → Prop
  | thread {i : ι} {a : Thread.Action} {out : Output} {t : Thread.State}
      (hallowed : Allowed (s.progress i) a) (hs : thread.step (s.object i) a = some (out, t)) :
      Step pthread s (.thread i a) out { s with
        object := update s.object i t
        progress := update s.progress i (advance (s.progress i) a) }
  | insert {i : ι} {k : Nat} (hc : (s.object i).child k = .init) :
      Step pthread s (.insert i k) .silent { s with
        threads := insert (pthread i (s.object i).impl.id) s.threads
        progress := update s.progress i (update (s.progress i) k .inserted) }
  | erase {i : ι} {k : Nat} (hc : (s.object i).child k = .exit) :
      Step pthread s (.erase i k) .silent { s with
        threads := s.threads.erase (pthread i (s.object i).impl.id)
        progress := update s.progress i (update (s.progress i) k .erased) }

theorem step_of_eq {a : Action ι} (hs : (registry pthread).step s a = some (out, s')) :
    Step pthread s a out s' := by
  cases a with
  | thread i a =>
      obtain ⟨hallowed, hs⟩ := Option.ite_none_right_eq_some.mp hs
      obtain ⟨⟨o, t⟩, ht, he⟩ := Option.map_eq_some_iff.mp hs
      cases he
      exact .thread hallowed ht
  | insert i k =>
      obtain ⟨⟨hc, -⟩, he⟩ := Option.ite_none_right_eq_some.mp hs
      cases he
      exact .insert hc
  | erase i k =>
      obtain ⟨⟨hc, -⟩, he⟩ := Option.ite_none_right_eq_some.mp hs
      cases he
      exact .erase hc

theorem Inv.step {a : Action ι} (h : Inv pthread s) (hs : Step pthread s a out s')
    (hawaited : Awaited s a) (hnew : NewId pthread s a) (hends : EndsUnlisted s a) :
    Inv pthread s' := by
  cases hs with
  | thread hallowed ht => exact h.thread_step hallowed ht hawaited hnew hends
  | insert hc => exact h.insert_step hc
  | erase hc => exact h.erase_step hc

/-- A child that ends with its id in the set leaves an id there that is of no child any more. -/
theorem Inv.not_onlyLive {a : Action ι} (h : Inv pthread s) (hs : Step pthread s a out s')
    (hends : ¬ EndsUnlisted s a) : ¬ OnlyLive pthread s' := by
  cases hs with
  | insert | erase => exact absurd trivial hends
  | @thread i a _ t hallowed ht =>
      cases a with
      | call | owner => exact absurd trivial hends
      | child k b =>
          obtain ⟨he, hl⟩ := Classical.not_imp.mp hends
          have hlisted := not_not.mp hl
          intro hlive
          obtain ⟨j, m, hid, hjm⟩ := hlive _ ((h.listed _).mpr ⟨i, k, rfl, hlisted⟩)
          have hev := evolves hallowed ht
          have hold : Live ((s.object j).child m) := by
            rcases (hev j m).existed hjm with hold | ⟨-, -, ha, -⟩
            · exact hold
            · cases ha
          obtain ⟨rfl, rfl⟩ := h.distinct j m i k hold (h.live i k hlisted) hid
          obtain ⟨impl, c, hm, rfl⟩ := child_step ht
          simp only [update_self] at hjm
          rcases live_or_ends hm with ⟨-, hne⟩ | ⟨rfl, -⟩
          · exact hne he
          · exact hjm.2 rfl

/-! ## Life cycles -/

/-- A life cycle in which the child gets to the erasure of its id: `init` returns true, `run`
returns rather than calling `exit`, and no cancellation is honoured between the insertion of the id
and its erasure. The owner calls `join` in a canceled cycle only after the child has gone. -/
def Regular (s : State ι τ) : Action ι → Prop
  | .thread i (.call c) => JoinsGone (s.object i) (.call c)
  | .thread _ (.child _ (.initReturn b)) => b = true
  | .thread _ (.child _ (.leave byExit)) => byExit = false
  | .thread i (.child k .cancel) => ¬ (s.progress i k).Listed
  | _ => True

instance (s : State ι τ) : DecidablePred (Regular s)
  | .thread i (.call c) => inferInstanceAs (Decidable (JoinsGone (s.object i) (.call c)))
  | .thread _ (.child _ (.initReturn b)) => inferInstanceAs (Decidable (b = true))
  | .thread _ (.child _ (.leave byExit)) => inferInstanceAs (Decidable (byExit = false))
  | .thread i (.child k .cancel) => inferInstanceAs (Decidable (¬ (s.progress i k).Listed))
  | .thread _ (.child _ .step) | .thread _ (.child _ .work) | .thread _ (.child _ .callJoin)
  | .thread _ (.owner _) | .insert _ _ | .erase _ _ => isTrue trivial

/-- Where a child of such a life cycle is, and what it has done with its id. -/
def Returned (p : Progress) : Child → Prop
  | .setState ready => ready = true
  | .exit => p = .erasing ∨ p = .erased
  | .terminate => p = .erased
  | _ => True

omit [DecidableEq τ] [DecidableEq ι] in
theorem Regular.joinsGone {a : Thread.Action} (h : Regular s (.thread i a)) :
    JoinsGone (s.object i) a := by
  cases a with
  | call c => exact h
  | owner | child => trivial

omit [DecidableEq τ] [DecidableEq ι] in
theorem returned_next {canceled : Bool} {impl impl' : Impl} {c c' : Child} {b : ChildAction}
    (hm : Moves k canceled impl c b out impl' c') (hr : Returned (s.progress i k) c)
    (hallows : (s.progress i k).Allows b)
    (hg : Regular s (.thread i (.child k b))) : Returned ((s.progress i k).next b) c' := by
  cases hm with
  | initReturn b => exact hg
  -- `init` has not returned false
  | failed => cases hr
  | leave byExit =>
      have hb : byExit = false := hg
      subst hb
      exact Or.inl rfl
  | exit => exact hr.resolve_left hallows
  | _ => trivial

omit [DecidableEq τ] [DecidableEq ι] in
/-- A regular step of an object, for each child. -/
theorem Evolves.returned {a : Thread.Action} {j : ι} {m : Nat} {c : Child} {p : Progress}
    (h : Evolves s i a j m c p) (hg : Regular s (.thread i a))
    (hr : Returned (s.progress j m) ((s.object j).child m)) : Returned p c := by
  cases h with
  | same => exact hr
  | created => trivial
  | moved hj ha hallows hm =>
      subst hj ha
      exact returned_next hm hr hallows hg

/-- What holds in all states of regular life cycles. -/
structure Tidy (s : State ι τ) : Prop where
  prompt : ∀ i, Prompt (s.object i)
  returned : ∀ i k, Returned (s.progress i k) ((s.object i).child k)

theorem Tidy.step {a : Action ι} (h : Tidy s) (hs : Step pthread s a out s') (hg : Regular s a) :
    Tidy s' := by
  cases hs with
  | @thread i a _ t hallowed ht =>
      refine ⟨fun j => ?_, fun j m => (evolves hallowed ht j m).returned hg (h.returned j m)⟩
      by_cases hj : j = i
      · subst hj
        simp only [update_self]
        exact prompt_step (h.prompt j) hg.joinsGone ht
      · simp only [update_of_ne hj]
        exact h.prompt j
  | @insert i k hc =>
      refine ⟨h.prompt, fun j m => ?_⟩
      simp only [update_progress]
      split_ifs with hjm
      · -- it has not called `init` yet
        rw [hjm.1, hjm.2, hc]
        trivial
      · exact h.returned j m
  | @erase i k hc =>
      refine ⟨h.prompt, fun j m => ?_⟩
      simp only [update_progress]
      split_ifs with hjm
      · -- `run` has returned, and `exit` is next
        rw [hjm.1, hjm.2, hc]
        exact Or.inr rfl
      · exact h.returned j m

omit [DecidableEq τ] [DecidableEq ι] in
/-- A child of a regular life cycle ends with its id erased, or not yet inserted. -/
theorem Tidy.endsUnlisted {a : Action ι} (h : Tidy s) (hg : Regular s a) : EndsUnlisted s a := by
  cases a with
  | insert | erase => trivial
  | thread i a =>
      cases a with
      | call | owner => trivial
      | child k b =>
          intro hends
          cases b with
          | cancel => exact hg
          | step =>
              -- the end of `pthread_exit`, which such a child calls after the erasure
              have hc : (s.object i).child k = .terminate := hends
              have hr := h.returned i k
              rw [hc] at hr
              have hp : s.progress i k = .erased := hr
              rw [hp]
              exact id
          | initReturn | work | callJoin | leave => exact hends.elim

omit [DecidableEq τ] [DecidableEq ι] in
theorem Tidy.awaited {a : Action ι} (h : Tidy s) : Awaited s a := by
  cases a with
  | thread i a => exact (h.prompt i).awaits
  | insert | erase => trivial

/-! ## Runs -/

theorem inv_init : Inv pthread (registry pthread).init := by
  refine ⟨fun _ => Thread.inv_init, fun _ _ => rfl, fun t => ?_, fun _ _ hl => hl.elim,
    fun _ _ _ _ hl => absurd rfl hl.1⟩
  simp [registry, Progress.Listed]

variable {tr : List (Action ι × Output)}

/-- `_dumpAll` signals only threads that exist, exactly if no child ends with its id in the set. -/
theorem onlyLive_iff (h : (registry pthread).Trace tr s)
    (hawaited : (registry pthread).Guarded Awaited tr)
    (hnew : (registry pthread).Guarded (NewId pthread) tr) :
    (registry pthread).Always (fun _ => OnlyLive pthread) tr ↔
      (registry pthread).Guarded EndsUnlisted tr := by
  refine h.always_iff_guarded_under (H := fun s a => Awaited s a ∧ NewId pthread s a) (Inv pthread)
    inv_init inv_init.onlyLive ?_ ?_ ?_
  · exact fun s a out s' hinv hh hg hs => hinv.step (step_of_eq hs) hh.1 hh.2 hg
  · intro tr s a out s' _ hinv hh _ hs
    by_cases hg : EndsUnlisted s a
    · exact iff_of_true (hinv.step (step_of_eq hs) hh.1 hh.2 hg).onlyLive hg
    · exact iff_of_false (hinv.not_onlyLive (step_of_eq hs) hg) hg
  · intro pre a b post s he ht
    exact ⟨hawaited pre a b post s he ht, hnew pre a b post s he ht⟩

theorem objects_of_trace (h : (registry pthread).Trace tr s)
    (hawaited : (registry pthread).Guarded Awaited tr) (i : ι) : Thread.Inv (s.object i) := by
  revert i
  refine h.guardedInv (fun _ s => ∀ i, Thread.Inv (s.object i)) (fun _ => Thread.inv_init) ?_
    hawaited
  intro tr s a out s' hinv hg hs
  cases step_of_eq hs with
  | insert | erase => exact hinv
  | thread _ ht => exact objects_step hinv ht hg

theorem tidy_init : Tidy (registry pthread).init :=
  ⟨fun _ _ => Owner.noConfusion, fun _ _ => trivial⟩

theorem tidy_of_trace (h : (registry pthread).Trace tr s)
    (hg : (registry pthread).Guarded Regular tr) : Tidy s := by
  refine h.guardedInv (fun _ => Tidy) tidy_init ?_ hg
  exact fun _ _ _ _ _ ht hg hs => ht.step (step_of_eq hs) hg

/-- What regular life cycles meet at every step. -/
theorem guarded_of_regular {G : State ι τ → Action ι → Prop} (h : (registry pthread).Trace tr s)
    (hg : (registry pthread).Guarded Regular tr) (hG : ∀ s a, Tidy s → Regular s a → G s a) :
    (registry pthread).Guarded G tr := by
  rintro pre a b post s0 rfl h0
  obtain ⟨s1, -, h1, hg1, ha, -⟩ := h.guarded_split hg
  rw [h0.unique h1]
  exact hG s1 a (tidy_of_trace h1 hg1) ha

/-- **`_dumpAll` signals only threads that exist.** This is for any number of thread objects and
every interleaving of their owners and children, where every child has a regular life cycle and the
system gives new threads ids that no thread has. -/
theorem registry_live (h : (registry pthread).Trace tr s)
    (hregular : (registry pthread).Guarded Regular tr)
    (hnew : (registry pthread).Guarded (NewId pthread) tr) :
    (registry pthread).Always (fun _ => OnlyLive pthread) tr := by
  refine (onlyLive_iff h ?_ hnew).mpr ?_
  · exact guarded_of_regular h hregular fun _ _ ht _ => ht.awaited
  · exact guarded_of_regular h hregular fun _ _ ht hg => ht.endsUnlisted hg

/-- If no id is ever used again, new threads have new ids. -/
theorem newId_of_injective (hinj : ∀ i k j m,
      pthread i (some (.child k)) = pthread j (some (.child m)) → i = j ∧ k = m)
    (h : (registry pthread).Trace tr s) (hawaited : (registry pthread).Guarded Awaited tr) :
    (registry pthread).Guarded (NewId pthread) tr := by
  rintro pre a b post s0 rfl h0
  obtain ⟨s1, -, h1, hg1, -⟩ := h.guarded_split hawaited
  rw [h0.unique h1]
  unfold NewId
  split
  swap
  · trivial
  rename_i i
  intro n ho j m hlive hid
  obtain ⟨rfl, rfl⟩ := hinj j m i _ hid
  have hallows := (objects_of_trace h1 hg1 j).current.owner
  rw [ho] at hallows
  exact hlive.1 hallows.2.1

/-! ## Concrete runs -/

/-- The number of the cycle as the id. -/
def cycleId : Option Pthread → Nat
  | some (.child k) => k
  | _ => 0

/-- The object `i` is started, and its child inserts its id. -/
def started (i : ι) : List (Action ι) :=
  [.thread i (.call .start), .thread i (.owner .success), .thread i (.owner .success),
    .thread i (.owner .success), .thread i (.child 1 .step), .insert i 1]

/-- The child runs, returns from `run` and ends. -/
def finished (i : ι) : List (Action ι) :=
  [.thread i (.child 1 (.initReturn true)), .thread i (.child 1 .step),
    .thread i (.child 1 (.leave false)), .erase i 1, .thread i (.child 1 .step),
    .thread i (.child 1 .step)]

/-- Two objects are started; the child of one of them has ended. -/
theorem registry_live_two_objects :
    ∃ tr s, (registry (τ := Bool × Nat) fun i id => (i, cycleId id)).Trace tr s ∧
      (s.object true).child 1 = .ended ∧ dumpAll s = {(false, 1)} ∧
      (registry fun i id => (i, cycleId id)).Always
        (fun _ => OnlyLive fun i id => (i, cycleId id)) tr := by
  let as : List (Action Bool) := started true ++ started false ++ finished true
  let M : Machine (State Bool (Bool × Nat)) (Action Bool) Output :=
    registry fun i id => (i, cycleId id)
  have htrace := Machine.Trace.of_run (M := M) as rfl
  have hregular := Machine.guarded_of_run (M := M) (G := Regular) as rfl (by decide)
  have hawaited := guarded_of_regular (G := Awaited) htrace hregular fun _ _ ht _ => ht.awaited
  have hnew := newId_of_injective (fun i k j m hid => Prod.mk.inj hid) htrace hawaited
  exact ⟨_, _, htrace, rfl, rfl, registry_live htrace hregular hnew⟩

/-- The child of a started object takes the steps `rest`, and has ended then, but `_dumpAll` still
signals it. -/
def SignalledAfter (rest : List (Action Unit)) : Prop :=
  ∃ tr s, (registry fun _ => cycleId).Trace tr s ∧ tr.map Prod.fst = started () ++ rest ∧
    (s.object ()).child 1 = .ended ∧ 1 ∈ dumpAll s ∧ ¬ OnlyLive (fun _ => cycleId) s

theorem signalledAfter_of_run {rest : List (Action Unit)} {tr : List (Action Unit × Output)}
    {s : State Unit Nat} (hrun : (registry fun _ => cycleId).run (started () ++ rest)
      (registry fun _ => cycleId).init = some (tr, s))
    (hacts : tr.map Prod.fst = started () ++ rest) (hended : (s.object ()).child 1 = .ended)
    (hmem : 1 ∈ dumpAll s) : SignalledAfter rest := by
  refine ⟨tr, s, .of_run _ hrun, hacts, hended, hmem, fun hlive => ?_⟩
  obtain ⟨i, k, rfl, -, hne⟩ := hlive 1 hmem
  exact hne hended

/-- `init` returns false. -/
def initFailed : List (Action Unit) :=
  [.thread () (.child 1 (.initReturn false)), .thread () (.child 1 .step),
    .thread () (.child 1 .step)]

/-- `run` calls `exit`. -/
def exitCalled : List (Action Unit) :=
  [.thread () (.child 1 (.initReturn true)), .thread () (.child 1 .step),
    .thread () (.child 1 (.leave true)), .thread () (.child 1 .step), .thread () (.child 1 .step)]

/-- The child is canceled in `run`. -/
def canceledInRun : List (Action Unit) :=
  [.thread () (.child 1 (.initReturn true)), .thread () (.child 1 .step),
    .thread () (.owner .success), .thread () (.owner .success), .thread () (.owner .success),
    .thread () (.owner .success), .thread () (.call .cancel), .thread () (.owner .success),
    .thread () (.owner .success), .thread () (.child 1 .cancel)]

theorem ended_child_signalled :
    SignalledAfter initFailed ∧ SignalledAfter exitCalled ∧ SignalledAfter canceledInRun := by
  refine ⟨?_, ?_, ?_⟩
  · exact signalledAfter_of_run rfl rfl rfl (by decide)
  · exact signalledAfter_of_run rfl rfl rfl (by decide)
  · exact signalledAfter_of_run rfl rfl rfl (by decide)

end Lunchbox.Thread.Registry
