import Mathlib.Tactic

set_option autoImplicit false

/-! # Machines, histories and invariants

A machine is an initial state and a step function that answers an action with an output and
the next state, or refuses it (`none`): the action is not enabled, or a call blocks. Calls of
one client in sequence, and interleaved steps of several threads with the thread as part of
the action, are both machines.

A history (`Machine.Trace`) is the list of actions performed so far with their outputs. The
specifications of this development are functions of the history, so the invariants relate a
history to the state it leads to; `Trace.inv` is the one induction they all use.
-/

namespace StateMachine

/-- A state machine with states `σ`, actions `α` and outputs `β`. -/
structure Machine (σ α β : Type) where
  init : σ
  step : σ → α → Option (β × σ)

variable {σ α β : Type}

namespace Machine

variable (M : Machine σ α β)

/-- Perform a list of actions, collecting the outputs. -/
def run : List α → σ → Option (List (α × β) × σ)
  | [], s => some ([], s)
  | a :: as, s =>
      match M.step s a with
      | none => none
      | some (b, s') => (run as s').map fun r => ((a, b) :: r.1, r.2)

/-- `M.Trace tr s`: the history `tr` leads from the initial state to `s`. -/
inductive Trace : List (α × β) → σ → Prop
  | nil : Trace [] M.init
  | snoc {tr : List (α × β)} {s : σ} {a : α} {b : β} {s' : σ} :
      Trace tr s → M.step s a = some (b, s') → Trace (tr ++ [(a, b)]) s'

end Machine

open Machine

variable {M : Machine σ α β} {C : List (α × β) → α → Prop}

/-! ## Conditions on the actions -/

/-- Every action of the history met the condition `C` at the point where it was performed;
`C` sees the history before the action. -/
def Respects (C : List (α × β) → α → Prop) (tr : List (α × β)) : Prop :=
  ∀ pre a b post, tr = pre ++ (a, b) :: post → C pre a

theorem respects_nil : Respects C [] := by
  intro pre a b post h
  simp at h

theorem respects_snoc {tr : List (α × β)} {a : α} {b : β} :
    Respects C (tr ++ [(a, b)]) ↔ Respects C tr ∧ C tr a := by
  constructor
  · intro h
    refine ⟨?_, h tr a b [] rfl⟩
    intro pre a' b' post he
    exact h pre a' b' (post ++ [(a, b)]) (by rw [he]; simp)
  · rintro ⟨h, hC⟩ pre a' b' post he
    rcases List.eq_nil_or_concat post with rfl | ⟨post', e, rfl⟩
    · obtain ⟨rfl, hl⟩ := List.append_inj' he rfl
      simp only [List.cons.injEq, Prod.mk.injEq, and_true] at hl
      rw [← hl.1]
      exact hC
    · rw [List.concat_eq_append, ← List.cons_append, ← List.append_assoc] at he
      obtain ⟨rfl, -⟩ := List.append_inj' he rfl
      exact h pre a' b' post' rfl

theorem Respects.left {pre post : List (α × β)} (h : Respects C (pre ++ post)) :
    Respects C pre := by
  intro pre' a b post' he
  exact h pre' a b (post' ++ post) (by rw [he]; simp)

theorem Respects.of_mem {pre post : List (α × β)} (h : Respects C (pre ++ post)) {e : α × β}
    (he : e ∈ post) : ∃ p, C (pre ++ p) e.1 := by
  obtain ⟨p, q, rfl⟩ := List.append_of_mem he
  exact ⟨p, h (pre ++ p) e.1 e.2 q (by simp)⟩

/-- `Respects` as a recursion over the history, to be evaluated on a concrete one. -/
def checks (C : List (α × β) → α → Prop) : List (α × β) → List (α × β) → Prop
  | _, [] => True
  | pre, (a, b) :: post => C pre a ∧ checks C (pre ++ [(a, b)]) post

theorem respects_append_of_checks {pre post : List (α × β)} (h : Respects C pre)
    (hp : checks C pre post) : Respects C (pre ++ post) := by
  induction post generalizing pre with
  | nil => rwa [List.append_nil]
  | cons e post ih =>
      obtain ⟨a, b⟩ := e
      obtain ⟨ha, hp⟩ := hp
      have := ih (respects_snoc.mpr ⟨h, ha⟩) hp
      rwa [List.append_assoc, List.singleton_append] at this

theorem respects_of_checks {tr : List (α × β)} (h : checks C [] tr) : Respects C tr :=
  respects_append_of_checks respects_nil h

/-! ## Histories -/

/-- **The invariant rule.** What holds at the start and is kept by every step that meets the
condition holds after every history that does. -/
theorem Machine.Trace.inv (I : List (α × β) → σ → Prop) (h0 : I [] M.init)
    (hstep : ∀ tr s a b s', M.Trace tr s → Respects C tr → C tr a → I tr s →
      M.step s a = some (b, s') → I (tr ++ [(a, b)]) s')
    {tr : List (α × β)} {s : σ} (h : M.Trace tr s) (hC : Respects C tr) : I tr s := by
  induction h with
  | nil => exact h0
  | snoc ht hs ih =>
      obtain ⟨hr, hc⟩ := respects_snoc.mp hC
      exact hstep _ _ _ _ _ ht hr hc (ih hr) hs

/-- The invariant rule for a property of the state alone, without a condition. -/
theorem Machine.Trace.stateInv (I : σ → Prop) (h0 : I M.init)
    (hstep : ∀ s a b s', I s → M.step s a = some (b, s') → I s')
    {tr : List (α × β)} {s : σ} (h : M.Trace tr s) : I s := by
  induction h with
  | nil => exact h0
  | snoc _ hs ih => exact hstep _ _ _ _ ih hs

/-- **The simulation rule.** If every step that meets the condition is matched by a step of `N`
with the same action and output, the histories of `M` that meet it are histories of `N`. -/
theorem Machine.Trace.simulate {τ : Type} {N : Machine τ α β}
    (R : List (α × β) → σ → τ → Prop) (h0 : R [] M.init N.init)
    (hstep : ∀ tr s t a b s', R tr s t → C tr a → M.step s a = some (b, s') →
      ∃ t', N.step t a = some (b, t') ∧ R (tr ++ [(a, b)]) s' t')
    {tr : List (α × β)} {s : σ} (h : M.Trace tr s) (hC : Respects C tr) :
    ∃ t, N.Trace tr t ∧ R tr s t := by
  induction h with
  | nil => exact ⟨N.init, .nil, h0⟩
  | snoc _ hs ih =>
      obtain ⟨hr, hc⟩ := respects_snoc.mp hC
      obtain ⟨t, ht, hR⟩ := ih hr
      obtain ⟨t', hs', hR'⟩ := hstep _ _ t _ _ _ hR hc hs
      exact ⟨t', ht.snoc hs', hR'⟩

theorem Machine.Trace.snoc_inv {tr : List (α × β)} {a : α} {b : β} {s' : σ}
    (h : M.Trace (tr ++ [(a, b)]) s') : ∃ s, M.Trace tr s ∧ M.step s a = some (b, s') := by
  generalize ht : tr ++ [(a, b)] = tr' at h
  cases h with
  | nil => simp at ht
  | snoc h hs =>
      obtain ⟨rfl, he⟩ := List.append_inj' ht rfl
      simp only [List.cons.injEq, Prod.mk.injEq, and_true] at he
      obtain ⟨rfl, rfl⟩ := he
      exact ⟨_, h, hs⟩

/-- The actions and outputs of a history determine the state it leads to. -/
theorem Machine.Trace.unique {tr : List (α × β)} {s s' : σ} (h : M.Trace tr s)
    (h' : M.Trace tr s') : s = s' := by
  induction h generalizing s' with
  | nil =>
      generalize ht : [] = tr at h'
      cases h' with
      | nil => rfl
      | snoc => simp at ht
  | snoc _ hs ih =>
      obtain ⟨s1, h1, hs1⟩ := h'.snoc_inv
      rw [ih h1, hs1] at hs
      cases hs
      rfl

/-- **The invariant rule from a point on.** What holds after `pre` and is kept by every step
holds after every history that goes on from there; `J` sees the events since then. -/
theorem Machine.Trace.after (J : List (α × β) → σ → Prop) {pre post : List (α × β)} {s0 s : σ}
    (h0 : M.Trace pre s0) (h : M.Trace (pre ++ post) s) (hJ : J [] s0)
    (hstep : ∀ tr s a b s', J tr s → M.step s a = some (b, s') → J (tr ++ [(a, b)]) s') :
    J post s := by
  induction post using List.reverseRecOn generalizing s with
  | nil =>
      rw [List.append_nil] at h
      rwa [h.unique h0]
  | append_singleton post e ih =>
      rw [← List.append_assoc] at h
      obtain ⟨s1, h1, hs⟩ := h.snoc_inv
      exact hstep _ _ _ _ _ (ih h1) hs

/-- Every event of a history is a step from a state that the events before it lead to. -/
theorem Machine.Trace.split {pre post : List (α × β)} {a : α} {b : β} {s : σ}
    (h : M.Trace (pre ++ (a, b) :: post) s) :
    ∃ s0 s1, M.Trace pre s0 ∧ M.step s0 a = some (b, s1) := by
  induction post using List.reverseRecOn generalizing s with
  | nil =>
      obtain ⟨s0, h0, hs⟩ := h.snoc_inv
      exact ⟨s0, s, h0, hs⟩
  | append_singleton post e ih =>
      obtain ⟨a', b'⟩ := e
      rw [← List.cons_append, ← List.append_assoc] at h
      obtain ⟨s', h', -⟩ := h.snoc_inv
      exact ih h'

/-! ## Properties of all states of a history -/

/-- `Q` holds in every state that the history goes through. -/
def Machine.Always (M : Machine σ α β) (Q : List (α × β) → σ → Prop) (tr : List (α × β)) : Prop :=
  ∀ pre post s, tr = pre ++ post → M.Trace pre s → Q pre s

/-- Every action of the history met the condition `G` in the state where it was performed. -/
def Machine.Guarded (M : Machine σ α β) (G : σ → α → Prop) (tr : List (α × β)) : Prop :=
  ∀ pre a b post s, tr = pre ++ (a, b) :: post → M.Trace pre s → G s a

theorem Machine.always_snoc {Q : List (α × β) → σ → Prop} {tr : List (α × β)} {e : α × β} {s : σ}
    (h : M.Trace (tr ++ [e]) s) : M.Always Q (tr ++ [e]) ↔ M.Always Q tr ∧ Q (tr ++ [e]) s := by
  constructor
  · intro hq
    refine ⟨?_, hq _ [] s (List.append_nil _).symm h⟩
    intro pre post s0 he h0
    exact hq pre (post ++ [e]) s0 (by rw [he, List.append_assoc]) h0
  · rintro ⟨hq, hlast⟩ pre post s0 he h0
    rcases List.eq_nil_or_concat' post with rfl | ⟨post, e', rfl⟩
    · rw [List.append_nil] at he
      subst he
      rwa [h0.unique h]
    · rw [← List.append_assoc] at he
      exact hq pre post s0 (List.append_inj' he rfl).1 h0

theorem Machine.guarded_snoc {G : σ → α → Prop} {tr : List (α × β)} {a : α} {b : β} {s : σ}
    (h : M.Trace tr s) : M.Guarded G (tr ++ [(a, b)]) ↔ M.Guarded G tr ∧ G s a := by
  constructor
  · intro hg
    refine ⟨?_, hg tr a b [] s rfl h⟩
    intro pre a' b' post s0 he h0
    exact hg pre a' b' (post ++ [(a, b)]) s0 (by rw [he]; simp) h0
  · rintro ⟨hg, hlast⟩ pre a' b' post s0 he h0
    rcases List.eq_nil_or_concat' post with rfl | ⟨post, e, rfl⟩
    · obtain ⟨rfl, hl⟩ := List.append_inj' he rfl
      cases hl
      rwa [h0.unique h]
    · rw [← List.cons_append, ← List.append_assoc] at he
      exact hg pre a' b' post s0 (List.append_inj' he rfl).1 h0

/-- **The invariant rule for guarded histories.** -/
theorem Machine.Trace.guardedInv {G : σ → α → Prop} (I : List (α × β) → σ → Prop)
    (h0 : I [] M.init)
    (hstep : ∀ tr s a b s', I tr s → G s a → M.step s a = some (b, s') → I (tr ++ [(a, b)]) s')
    {tr : List (α × β)} {s : σ} (h : M.Trace tr s) (hG : M.Guarded G tr) : I tr s := by
  induction h with
  | nil => exact h0
  | snoc ht hs ih =>
      obtain ⟨hg, hlast⟩ := (guarded_snoc ht).mp hG
      exact hstep _ _ _ _ _ (ih hg) hlast hs

/-- Every event of a guarded history is a step that meets the condition, after a guarded history. -/
theorem Machine.Trace.guarded_split {G : σ → α → Prop} {pre post : List (α × β)} {a : α} {b : β}
    {s : σ} (h : M.Trace (pre ++ (a, b) :: post) s) (hG : M.Guarded G (pre ++ (a, b) :: post)) :
    ∃ s0 s1, M.Trace pre s0 ∧ M.Guarded G pre ∧ G s0 a ∧ M.step s0 a = some (b, s1) := by
  obtain ⟨s0, s1, h0, hs⟩ := h.split
  refine ⟨s0, s1, h0, ?_, hG pre a b post s0 rfl h0, hs⟩
  intro pre' a' b' post' s' he h'
  exact hG pre' a' b' (post' ++ (a, b) :: post) s' (by rw [he]; simp) h'

/-- **The exact condition, in histories that meet another one.** If the steps that meet `H` and
`G` keep an invariant `I`, and a step that meets `H` from a state with `Q` and `I` keeps `Q` exactly
if it meets `G`, then a history whose actions all meet `H` has `Q` in all its states exactly if
they all meet `G` too. -/
theorem Machine.Trace.always_iff_guarded_under {Q : List (α × β) → σ → Prop} {H G : σ → α → Prop}
    (I : σ → Prop) (hI : I M.init) (h0 : Q [] M.init)
    (hinv : ∀ s a b s', I s → H s a → G s a → M.step s a = some (b, s') → I s')
    (hstep : ∀ tr s a b s', M.Trace tr s → I s → H s a → Q tr s → M.step s a = some (b, s') →
      (Q (tr ++ [(a, b)]) s' ↔ G s a))
    {tr : List (α × β)} {s : σ} (h : M.Trace tr s) (hH : M.Guarded H tr) :
    M.Always Q tr ↔ M.Guarded G tr := by
  -- along a history that meets both conditions the invariant holds too
  suffices hboth : (M.Always Q tr ↔ M.Guarded G tr) ∧ (M.Guarded G tr → I s) from hboth.1
  induction h with
  | nil =>
      refine ⟨⟨?_, ?_⟩, fun _ => hI⟩
      · intro _ pre a b post s he
        simp at he
      · intro _ pre post s he h
        obtain ⟨rfl, -⟩ := List.append_eq_nil_iff.mp he.symm
        rwa [h.unique .nil]
  | snoc ht hs ih =>
      obtain ⟨hh, hlast⟩ := (guarded_snoc ht).mp hH
      obtain ⟨hiff, hinv0⟩ := ih hh
      rw [always_snoc (ht.snoc hs), guarded_snoc ht, hiff]
      refine ⟨and_congr_right fun hg => ?_, fun hg => hinv _ _ _ _ (hinv0 hg.1) hlast hg.2 hs⟩
      exact hstep _ _ _ _ _ ht (hinv0 hg) hlast (hiff.mpr hg _ [] _ (List.append_nil _).symm ht) hs

/-- **The exact condition.** If a step from a state with `Q` and an invariant `I` keeps `Q` exactly
if it meets `G`, and the steps that meet `G` keep `I`, then a history has `Q` in all its states
exactly if all its actions meet `G`. -/
theorem Machine.Trace.always_iff_guarded_of_inv {Q : List (α × β) → σ → Prop} {G : σ → α → Prop}
    (I : σ → Prop) (hI : I M.init) (h0 : Q [] M.init)
    (hinv : ∀ s a b s', I s → G s a → M.step s a = some (b, s') → I s')
    (hstep : ∀ tr s a b s', M.Trace tr s → I s → Q tr s → M.step s a = some (b, s') →
      (Q (tr ++ [(a, b)]) s' ↔ G s a))
    {tr : List (α × β)} {s : σ} (h : M.Trace tr s) : M.Always Q tr ↔ M.Guarded G tr :=
  h.always_iff_guarded_under (H := fun _ _ => True) I hI h0
    (fun s a b s' hi _ => hinv s a b s' hi)
    (fun tr s a b s' ht hi _ => hstep tr s a b s' ht hi) fun _ _ _ _ _ _ _ => trivial

/-- The exact condition without an invariant. -/
theorem Machine.Trace.always_iff_guarded {Q : List (α × β) → σ → Prop} {G : σ → α → Prop}
    (h0 : Q [] M.init)
    (hstep : ∀ tr s a b s', M.Trace tr s → Q tr s → M.step s a = some (b, s') →
      (Q (tr ++ [(a, b)]) s' ↔ G s a))
    {tr : List (α × β)} {s : σ} (h : M.Trace tr s) : M.Always Q tr ↔ M.Guarded G tr :=
  h.always_iff_guarded_of_inv (fun _ => True) trivial h0 (fun _ _ _ _ _ _ _ => trivial)
    fun tr s a b s' ht _ => hstep tr s a b s' ht

/-- The exact condition, where it depends on the history. -/
theorem Machine.Trace.always_iff_respects {Q : List (α × β) → σ → Prop} (h0 : Q [] M.init)
    (hstep : ∀ tr s a b s', M.Trace tr s → Q tr s → M.step s a = some (b, s') →
      (Q (tr ++ [(a, b)]) s' ↔ C tr a))
    {tr : List (α × β)} {s : σ} (h : M.Trace tr s) : M.Always Q tr ↔ Respects C tr := by
  induction h with
  | nil =>
      refine iff_of_true ?_ respects_nil
      intro pre post s he h
      obtain ⟨rfl, -⟩ := List.append_eq_nil_iff.mp he.symm
      rwa [h.unique .nil]
  | snoc ht hs ih =>
      rw [always_snoc (ht.snoc hs), respects_snoc, ← ih]
      refine and_congr_right fun hq => ?_
      exact hstep _ _ _ _ _ ht (hq _ [] _ (List.append_nil _).symm ht) hs

/-! ## Runs on concrete actions -/

theorem Machine.run_cons {tr : List (α × β)} {s s' : σ} {a : α} {as : List α}
    (h : M.run (a :: as) s = some (tr, s')) :
    ∃ b s1 tr1, M.step s a = some (b, s1) ∧ M.run as s1 = some (tr1, s') ∧ tr = (a, b) :: tr1 := by
  rw [run] at h
  split at h
  · cases h
  · rename_i b s1 hs
    obtain ⟨⟨tr1, s2⟩, hr, he⟩ := Option.map_eq_some_iff.mp h
    simp only [Prod.mk.injEq] at he
    obtain ⟨rfl, rfl⟩ := he
    exact ⟨b, s1, tr1, hs, hr, rfl⟩

theorem Machine.Trace.append_run {tr tr' : List (α × β)} {s s' : σ} {as : List α}
    (h : M.Trace tr s) (hr : M.run as s = some (tr', s')) : M.Trace (tr ++ tr') s' := by
  induction as generalizing tr tr' s with
  | nil =>
      simp only [run, Option.some.injEq, Prod.mk.injEq] at hr
      obtain ⟨rfl, rfl⟩ := hr
      rwa [List.append_nil]
  | cons a as ih =>
      obtain ⟨b, s1, tr1, hs, hr1, rfl⟩ := run_cons hr
      have := ih (h.snoc hs) hr1
      rwa [List.append_assoc, List.singleton_append] at this

/-- `Guarded` as a recursion over the actions, to be evaluated on concrete ones. -/
def Machine.meets (M : Machine σ α β) (G : σ → α → Prop) : List α → σ → Prop
  | [], _ => True
  | a :: as, s => G s a ∧ ∀ r ∈ M.step s a, meets M G as r.2

instance Machine.decidableMeets (M : Machine σ α β) (G : σ → α → Prop)
    [∀ s a, Decidable (G s a)] : ∀ as s, Decidable (M.meets G as s)
  | [], _ => isTrue trivial
  | a :: as, s =>
      match h : M.step s a with
      | none => decidable_of_iff (G s a) (by simp [meets, h])
      | some r =>
          have := decidableMeets M G as r.2
          decidable_of_iff (G s a ∧ M.meets G as r.2) (by simp [meets, h])

theorem Machine.guarded_append_run {G : σ → α → Prop} {tr tr' : List (α × β)} {s s' : σ}
    {as : List α} (h : M.Trace tr s) (hg : M.Guarded G tr) (hm : M.meets G as s)
    (hr : M.run as s = some (tr', s')) : M.Guarded G (tr ++ tr') := by
  induction as generalizing tr tr' s with
  | nil =>
      simp only [run, Option.some.injEq, Prod.mk.injEq] at hr
      obtain ⟨rfl, rfl⟩ := hr
      rwa [List.append_nil]
  | cons a as ih =>
      obtain ⟨ha, hm⟩ := hm
      obtain ⟨b, s1, tr1, hs, hr1, rfl⟩ := run_cons hr
      have := ih (h.snoc hs) ((guarded_snoc h).mpr ⟨hg, ha⟩) (hm _ hs) hr1
      rwa [List.append_assoc, List.singleton_append] at this

theorem Machine.guarded_of_run {G : σ → α → Prop} (as : List α) {tr : List (α × β)} {s : σ}
    (hr : M.run as M.init = some (tr, s)) (hm : M.meets G as M.init) : M.Guarded G tr := by
  refine guarded_append_run .nil ?_ hm hr
  intro pre a b post s he
  simp at he

/-- Running the machine gives a history. -/
theorem Machine.Trace.of_run (as : List α) {tr : List (α × β)} {s : σ}
    (hr : M.run as M.init = some (tr, s)) : M.Trace tr s :=
  Trace.nil.append_run hr

/-! ## Two machines that never refuse -/

/-- If related states answer every action, with the same output, so do they answer every list of
actions. -/
theorem Machine.run_simulate {τ : Type} {N : Machine τ α β} (R : σ → τ → Prop)
    (hstep : ∀ s t a, R s t →
      ∃ b s' t', M.step s a = some (b, s') ∧ N.step t a = some (b, t') ∧ R s' t')
    (as : List α) {s : σ} {t : τ} (h : R s t) :
    ∃ tr s' t', M.run as s = some (tr, s') ∧ N.run as t = some (tr, t') ∧ R s' t' := by
  induction as generalizing s t with
  | nil => exact ⟨[], s, t, rfl, rfl, h⟩
  | cons a as ih =>
      obtain ⟨b, s1, t1, hs, ht, h1⟩ := hstep s t a h
      obtain ⟨tr, s2, t2, hs2, ht2, h2⟩ := ih h1
      refine ⟨(a, b) :: tr, s2, t2, ?_, ?_, h2⟩
      · simp only [run, hs, hs2, Option.map_some]
      · simp only [run, ht, ht2, Option.map_some]

end StateMachine
