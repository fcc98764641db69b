import Lunchbox.Lib.Machine

set_option autoImplicit false

/-! # Linearizability

An object is given by what one operation does when it runs alone (`Object`). Threads call its
operations concurrently; the object is atomic if every call takes effect at one point between its
call and its return. A sequence of calls and returns is linearizable (`Linearizable`) if the
atomic object can produce it: the points are the silent moves of `Moves`, so that a call that
returned before another one began also takes effect before it.

A machine is shown to be linearizable by a simulation: each of its steps is matched by moves of
the atomic object with the same calls and returns (`linearize`, `linearizable_of_config`).
-/

namespace Linearizability

open StateMachine

/-- A sequential object with states `α`, operations `ο` and replies `ρ`. An operation without a
reply has to wait for another state. -/
structure Object (α ο ρ : Type) where
  init : α
  apply : α → ο → Option (ρ × α)

/-- What a thread is doing with the object: nothing, a call that has not taken effect, or a call
that has. -/
inductive Status (ο ρ : Type)
  | idle
  | pending (op : ο)
  | done (r : ρ)

/-- The visible part of a call. -/
inductive Event (ι ο ρ : Type)
  | call (t : ι) (op : ο)
  | ret (t : ι) (r : ρ)
  deriving DecidableEq

structure Config (ι α ο ρ : Type) where
  obj : α
  status : ι → Status ο ρ

variable {ι α ο ρ : Type}

def Object.start (O : Object α ο ρ) : Config ι α ο ρ := ⟨O.init, fun _ => .idle⟩

variable [DecidableEq ι]

def Config.goto (c : Config ι α ο ρ) (t : ι) (st : Status ο ρ) : Config ι α ο ρ :=
  { c with status := Function.update c.status t st }

theorem Config.goto_goto (c : Config ι α ο ρ) (t : ι) (st st' : Status ο ρ) :
    (c.goto t st).goto t st' = c.goto t st' := by
  simp only [Config.goto, Function.update_idem]

theorem Config.goto_self {c : Config ι α ο ρ} {t : ι} {st : Status ο ρ} (h : c.status t = st) :
    c.goto t st = c := by
  rw [Config.goto, ← h, Function.update_eq_self]

/-- The moves of the atomic object, with the calls and returns they show. -/
inductive Object.Moves (O : Object α ο ρ) (c : Config ι α ο ρ) :
    List (Event ι ο ρ) → Config ι α ο ρ → Prop
  | stay : O.Moves c [] c
  | call {es : List (Event ι ο ρ)} {c' : Config ι α ο ρ} (t : ι) (op : ο) :
      O.Moves c es c' → c'.status t = .idle →
      O.Moves c (es ++ [.call t op]) (c'.goto t (.pending op))
  | effect {es : List (Event ι ο ρ)} {c' : Config ι α ο ρ} (t : ι) {op : ο} {r : ρ} {a : α} :
      O.Moves c es c' → c'.status t = .pending op → O.apply c'.obj op = some (r, a) →
      O.Moves c es ({ c' with obj := a }.goto t (.done r))
  | ret {es : List (Event ι ο ρ)} {c' : Config ι α ο ρ} (t : ι) {r : ρ} :
      O.Moves c es c' → c'.status t = .done r → O.Moves c (es ++ [.ret t r]) (c'.goto t .idle)

/-- The calls and returns `es` are those of an atomic object. -/
def Linearizable (O : Object α ο ρ) (es : List (Event ι ο ρ)) : Prop :=
  ∃ c, O.Moves O.start es c

variable {O : Object α ο ρ}

theorem Object.Moves.trans {c c' c'' : Config ι α ο ρ} {es es' : List (Event ι ο ρ)}
    (h : O.Moves c es c') (h' : O.Moves c' es' c'') : O.Moves c (es ++ es') c'' := by
  induction h' with
  | stay => rwa [List.append_nil]
  | call t op _ hi ih =>
      rw [← List.append_assoc]
      exact ih.call t op hi
  | effect t _ hp ha ih => exact ih.effect t hp ha
  | ret t _ hd ih =>
      rw [← List.append_assoc]
      exact ih.ret t hd

/-- A step that leaves open whether the call of the thread has taken effect. -/
theorem Object.Moves.stay_at {c : Config ι α ο ρ} {t : ι} {st : Status ο ρ}
    (h : c.status t = st) : O.Moves c [] (c.goto t st) := by
  rw [Config.goto_self h]
  exact .stay

/-- **Refinement.** What an object can produce, another one that answers alike can produce as
well. -/
theorem Linearizable.refine {α' : Type} {O' : Object α' ο ρ} (R : α → α' → Prop)
    (h0 : R O.init O'.init)
    (hstep : ∀ a a' op r b, R a a' → O.apply a op = some (r, b) →
      ∃ b', O'.apply a' op = some (r, b') ∧ R b b')
    {es : List (Event ι ο ρ)} (h : Linearizable O es) : Linearizable O' es := by
  obtain ⟨c, hm⟩ := h
  have hsim : ∃ c' : Config ι α' ο ρ,
      O'.Moves O'.start es c' ∧ R c.obj c'.obj ∧ c'.status = c.status := by
    induction hm with
    | stay => exact ⟨O'.start, .stay, h0, rfl⟩
    | call t op _ hi ih =>
        obtain ⟨c', hm', hR, hst⟩ := ih
        exact ⟨_, hm'.call t op (hst ▸ hi), hR, by simp only [Config.goto, hst]⟩
    | effect t _ hp ha ih =>
        obtain ⟨c', hm', hR, hst⟩ := ih
        obtain ⟨b', hb', hR'⟩ := hstep _ _ _ _ _ hR ha
        exact ⟨_, hm'.effect t (hst ▸ hp) hb', hR', by simp only [Config.goto, hst]⟩
    | ret t _ hd ih =>
        obtain ⟨c', hm', hR, hst⟩ := ih
        exact ⟨_, hm'.ret t (hst ▸ hd), hR, by simp only [Config.goto, hst]⟩
  obtain ⟨c', hm', -⟩ := hsim
  exact ⟨c', hm'⟩

/-- **The simulation rule.** If every step of `M` that meets the condition is matched by moves that
show what `see` says, every history that meets it shows moves of the atomic object. -/
theorem linearize {σ α' β' : Type} {M : Machine σ α' β'}
    {C : List (α' × β') → α' → Prop} (see : α' × β' → List (Event ι ο ρ))
    (R : List (α' × β') → σ → Config ι α ο ρ → Prop) (h0 : R [] M.init O.start)
    (hstep : ∀ tr s c a b s', M.Trace tr s → Respects C tr → C tr a → R tr s c →
      M.step s a = some (b, s') → ∃ c', O.Moves c (see (a, b)) c' ∧ R (tr ++ [(a, b)]) s' c')
    {tr : List (α' × β')} {s : σ} (h : M.Trace tr s) (hC : Respects C tr) :
    ∃ c, O.Moves O.start (tr.flatMap see) c ∧ R tr s c := by
  refine Machine.Trace.inv (fun tr s => ∃ c, O.Moves O.start (tr.flatMap see) c ∧ R tr s c)
    ⟨O.start, .stay, h0⟩ ?_ h hC
  rintro tr s a b s' ht hr hc ⟨c, hm, hR⟩ hs
  obtain ⟨c', hm', hR'⟩ := hstep tr s c a b s' ht hr hc hR hs
  refine ⟨c', ?_, hR'⟩
  rw [List.flatMap_append, List.flatMap_singleton]
  exact hm.trans hm'

/-- The simulation rule, where the state of the machine says what the atomic object does. -/
theorem linearizable_of_config {σ α' β' : Type} {M : Machine σ α' β'}
    (see : α' × β' → List (Event ι ο ρ)) (config : σ → Config ι α ο ρ)
    (h0 : config M.init = O.start)
    (hstep : ∀ tr s a b s', M.Trace tr s → M.step s a = some (b, s') →
      O.Moves (config s) (see (a, b)) (config s'))
    {tr : List (α' × β')} {s : σ} (h : M.Trace tr s) : Linearizable O (tr.flatMap see) := by
  have hsim := linearize (C := fun _ _ => True) see (fun _ s c => c = config s) h0.symm ?_ h
    (fun _ _ _ _ _ => trivial)
  · obtain ⟨c, hm, -⟩ := hsim
    exact ⟨c, hm⟩
  · rintro tr s c a b s' ht - - rfl hs
    exact ⟨config s', hstep tr s a b s' ht hs, rfl⟩

end Linearizability
