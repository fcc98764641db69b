import Lunchbox.Thread.Invariant

set_option autoImplicit false

/-! # `start` and `join`

An owner that calls `start` and `join` in any order, and never `cancel`, on a thread for which
`pthread_create` succeeds. What a call returns is determined by the history: `start` begins a cycle
exactly if no child is unjoined and returns the result of its `init`, and `join` returns true
exactly if there is a child to join, after it has left `run`.
-/

namespace Lunchbox.Thread

open StateMachine Function

/-- `pthread_create`, where the owner calls it, fails with `EAGAIN` at most, and not in the last
iteration of the loop. -/
def Owner.Creates (error : Error) : Owner → Prop
  | .create nTries => error = .success ∨ error = .again ∧ nTries ≠ 0
  | _ => True

instance (error : Error) : DecidablePred (Owner.Creates error)
  | .create nTries => inferInstanceAs (Decidable (error = .success ∨ error = .again ∧ nTries ≠ 0))
  | .idle | .testStopped | .setStarting | .storeId | .waitNotStarting | .detach | .testStarted
  | .join _ | .setStopping | .requestCancel => isTrue trivial

/-- The condition on the steps: no `cancel`, and `pthread_create` succeeds. -/
def Succeeds (s : State) : Action → Prop
  | .call c => c ≠ .cancel
  | .owner error => s.owner.Creates error
  | .child _ _ => True

instance (s : State) : DecidablePred (Succeeds s)
  | .call c => inferInstanceAs (Decidable (c ≠ .cancel))
  | .owner error => inferInstanceAs (Decidable (s.owner.Creates error))
  | .child _ _ => isTrue trivial

/-! ## Histories -/

variable {tr : List (Action × Output)} {k : Nat} {a : Action} {out : Output}

def noteInit (k : Nat) (r : Option Bool) : Action → Option Bool
  | .child m (.initReturn b) => if m = k then some b else r
  | _ => r

/-- What the `init` of the child has returned. -/
def initResult (tr : List (Action × Output)) (k : Nat) : Option Bool :=
  tr.foldl (fun r e => noteInit k r e.1) none

def noteReturn (u : Option Nat) : Output → Option Nat
  | .start k true => some k
  | .join _ true => none
  | _ => u

/-- The cycle whose `start` has returned true and that has not been joined. -/
def unjoined (tr : List (Action × Output)) : Option Nat :=
  tr.foldl (fun u e => noteReturn u e.2) none

/-- The child has left `run`, by returning or by `exit`. -/
def LeftRun (tr : List (Action × Output)) (k : Nat) : Prop :=
  ∃ byExit out, (Action.child k (.leave byExit), out) ∈ tr

@[simp] theorem initResult_snoc :
    initResult (tr ++ [(a, out)]) k = noteInit k (initResult tr k) a := by
  simp [initResult]

@[simp] theorem unjoined_snoc : unjoined (tr ++ [(a, out)]) = noteReturn (unjoined tr) out := by
  simp [unjoined]

theorem LeftRun.snoc (h : LeftRun tr k) : LeftRun (tr ++ [(a, out)]) k := by
  obtain ⟨byExit, out', hmem⟩ := h
  exact ⟨byExit, out', List.mem_append_left _ hmem⟩

/-- What the output of a step says about the history before it. -/
def Answers (tr : List (Action × Output)) : Output → Prop
  | .start k b => unjoined tr = none ∧ initResult tr k = some b
  | .busy => unjoined tr ≠ none
  | .notCreated => False
  | .join k true => unjoined tr = some k ∧ LeftRun tr k
  | .join _ false => unjoined tr = none
  | .selfJoin b => b = false
  | .silent | .ended => True

/-! ## What the history tells about the state -/

/-- The result of `init`, from where the child is. -/
def Child.Knows (r : Option Bool) : Child → Prop
  | .unborn | .setId | .init => r = none
  | .setState b => r = some b
  | .run | .join _ | .exit => r = some true
  | .terminate | .ended => True

/-- The child was in `run`, and is not there any more. -/
def Child.HasLeft (r : Option Bool) : Child → Prop
  | .exit => True
  | .terminate | .ended => r = some true
  | _ => False

theorem Child.eq_of_quiet {c : Child} (hq : c.Quiet) (hu : c ≠ .unborn) :
    c = .terminate ∨ c = .ended := by
  cases c with
  | unborn => exact absurd rfl hu
  | terminate => exact Or.inl rfl
  | ended => exact Or.inr rfl
  | _ => exact hq.elim

theorem Child.Knows.of_active {c : Child} {r : Option Bool} (h : c.Knows r) (hc : c.Active) :
    r = some true := by
  cases c with
  | run | join | exit => exact h
  | _ => exact hc.elim

/-- The current cycle `k` is unjoined. -/
def Held (u : Option Nat) (r : Option Bool) (k : Nat) (state : ThreadState) : Prop :=
  u = some k ∧ state ≠ .stopped ∧ r = some true

/-- The unjoined cycle, the result of `init` and the monitor, from where the owner is. -/
def Owner.Knows (u : Option Nat) (r : Option Bool) (k : Nat) (state : ThreadState) (c : Child) :
    Owner → Prop
  | .idle | .testStopped | .join .testStopped => u = none ∧ state = .stopped ∨ Held u r k state
  | .setStarting | .create _ => u = none
  | .storeId | .waitNotStarting | .detach | .testStarted =>
      u = none ∧ (c = .terminate ∨ c = .ended → r = some (decide (state ≠ .stopped)))
  | .join _ => Held u r k state
  | .setStopping | .requestCancel => False

structure Told (tr : List (Action × Output)) (s : State) : Prop where
  uncanceled : ∀ k, s.canceled k = false
  init : ∀ k, (s.child k).Knows (initResult tr k)
  left : ∀ k, (s.child k).HasLeft (initResult tr k) → LeftRun tr k
  owner : s.owner.Knows (unjoined tr) (initResult tr s.cycle) s.cycle s.impl.state (s.child s.cycle)

variable {s s' : State}

theorem told_init : Told [] thread.init :=
  ⟨fun _ => rfl, fun _ => rfl, fun _ => False.elim, Or.inl ⟨rfl, rfl⟩⟩

/-! ## Steps of a child -/

section Child

variable {impl impl' : Impl} {c c' : Child} {act : ChildAction} {r : Option Bool} {owner : Owner}
  {u : Option Nat}

theorem Moves.knows (h : Moves k false impl c act out impl' c') (hc : c.Knows r) :
    c'.Knows (noteInit k r (.child k act)) := by
  cases h with
  | initReturn b => simp [noteInit, Child.Knows]
  | cancel hcanceled => cases hcanceled
  | terminate | failed | exit => trivial
  | _ => exact hc

theorem Moves.hasLeft (h : Moves k false impl c act out impl' c') (hc : c.Knows r)
    (hc' : c'.HasLeft (noteInit k r (.child k act))) :
    c.HasLeft r ∨ ∃ byExit, act = .leave byExit := by
  cases h with
  | leave byExit => exact Or.inr ⟨byExit, rfl⟩
  | exit => exact Or.inl trivial
  | terminate => exact Or.inl hc'
  | cancel hcanceled => cases hcanceled
  | failed =>
      rw [show r = some false from hc] at hc'
      cases hc'
  | _ => exact hc'.elim

/-- A child that has told the owner that it is ready keeps the monitor stopped or not stopped. -/
theorem Moves.calm (h : Moves k false impl c act out impl' c') (hcur : Current k impl owner false c)
    (hc : ¬ c.Starting) :
    noteInit k r (.child k act) = r ∧ (impl'.state = .stopped ↔ impl.state = .stopped) := by
  cases h with
  | setId | initReturn | ready | failed => exact absurd trivial hc
  | cancel hcanceled => cases hcanceled
  | goto hj | ret hj =>
      obtain ⟨rfl, -⟩ := hcur.join_child hj
      exact ⟨rfl, Iff.rfl⟩
  | exit =>
      refine ⟨rfl, by simp, fun hst => ?_⟩
      rcases hcur.active trivial with ⟨he, -⟩ | ⟨he, -⟩ <;> rw [he] at hst <;> cases hst
  | _ => exact ⟨rfl, Iff.rfl⟩

/-- A child that ends its part of `start` tells the owner the result of `init`. -/
theorem Moves.tells (h : Moves k false impl c act out impl' c') (hc : c.Knows r)
    (hend : c = .terminate ∨ c = .ended → r = some (decide (impl.state ≠ .stopped)))
    (hc' : c' = .terminate ∨ c' = .ended) :
    noteInit k r (.child k act) = some (decide (impl'.state ≠ .stopped)) := by
  cases h with
  | failed => exact hc
  | exit => exact hc
  | terminate => exact hend (Or.inl rfl)
  | cancel hcanceled => cases hcanceled
  | _ => simp at hc'

theorem Moves.owner_knows (h : Moves k false impl c act out impl' c')
    (hcur : Current k impl owner false c) (hc : c.Knows r)
    (howner : owner.Knows u r k impl.state c) :
    owner.Knows u (noteInit k r (.child k act)) k impl'.state c' := by
  have hallows := hcur.owner
  have hheld (hnot : ¬ c.Starting) (hh : Held u r k impl.state) :
      Held u (noteInit k r (.child k act)) k impl'.state := by
    obtain ⟨hr, hst⟩ := h.calm (r := r) hcur hnot
    exact ⟨hh.1, fun he => hh.2.1 (hst.mp he), hr.trans hh.2.2⟩
  have hidle (hnot : ¬ c.Starting) (hh : u = none ∧ impl.state = .stopped ∨ Held u r k impl.state) :
      u = none ∧ impl'.state = .stopped ∨ Held u (noteInit k r (.child k act)) k impl'.state :=
    hh.imp (fun hn => ⟨hn.1, (h.calm (r := r) hcur hnot).2.mpr hn.2⟩) (hheld hnot)
  cases owner with
  | idle | testStopped => exact hidle hallows howner
  | setStarting | create => exact howner
  | storeId | waitNotStarting | detach | testStarted => exact ⟨howner.1, h.tells hc howner.2⟩
  | join j =>
      cases j with
      | testStopped => exact hidle hallows howner
      | testCurrent | waitNotRunning => exact hheld hallows howner
      | setStopped => exact hheld hallows.1 howner
  | setStopping | requestCancel => exact howner.elim

theorem Moves.noteReturn (h : Moves k false impl c act out impl' c') : noteReturn u out = u := by
  cases h <;> rfl

end Child

theorem Told.child_step (h : Told tr s) (hinv : Inv s) {act : ChildAction}
    (hs : thread.step s (.child k act) = some (out, s')) :
    Told (tr ++ [(.child k act, out)]) s' := by
  obtain ⟨impl, c, hm, rfl⟩ := Thread.child_step hs
  rw [h.uncanceled k] at hm
  have hother (m : Nat) (hmk : m ≠ k) : noteInit m (initResult tr m) (.child k act)
      = initResult tr m := by
    cases act <;> simp [noteInit, Ne.symm hmk]
  refine ⟨h.uncanceled, fun m => ?_, fun m => ?_, ?_⟩
  · rw [initResult_snoc]
    by_cases hmk : m = k
    · subst hmk
      simp only [update_self]
      exact hm.knows (h.init m)
    · simp only [update_of_ne hmk, hother m hmk]
      exact h.init m
  · rw [initResult_snoc]
    by_cases hmk : m = k
    · subst hmk
      simp only [update_self]
      intro hleft
      rcases hm.hasLeft (h.init m) hleft with hl | ⟨byExit, rfl⟩
      · exact (h.left m hl).snoc
      · exact ⟨byExit, out, List.mem_append_right _ (List.mem_singleton_self _)⟩
    · simp only [update_of_ne hmk, hother m hmk]
      exact fun hleft => (h.left m hleft).snoc
  · rw [initResult_snoc, unjoined_snoc, hm.noteReturn]
    by_cases hk : k = s.cycle
    · subst hk
      simp only [update_self]
      have hcur := hinv.current
      rw [h.uncanceled] at hcur
      exact hm.owner_knows hcur (h.init _) h.owner
    · have hm' := hm
      rw [← h.uncanceled k] at hm'
      obtain ⟨-, -, rfl, -⟩ := hinv.moves_other hk hm'
      simp only [update_of_ne (Ne.symm hk), hother s.cycle (Ne.symm hk)]
      exact h.owner

/-! ## Steps of the owner -/

namespace Told

/-- A step of the owner that creates no child. -/
theorem move (h : Told tr s) (hnote : ∀ k r, noteInit k r a = r) (hchild : s'.child = s.child)
    (hcanceled : s'.canceled = s.canceled)
    (howner : s'.owner.Knows (noteReturn (unjoined tr) out) (initResult tr s'.cycle) s'.cycle
      s'.impl.state (s.child s'.cycle)) : Told (tr ++ [(a, out)]) s' := by
  refine ⟨fun k => ?_, fun k => ?_, fun k => ?_, ?_⟩
  · rw [hcanceled]
    exact h.uncanceled k
  · rw [hchild, initResult_snoc, hnote]
    exact h.init k
  · rw [hchild, initResult_snoc, hnote]
    exact fun hleft => (h.left k hleft).snoc
  · rw [hchild, initResult_snoc, hnote, unjoined_snoc]
    exact howner

theorem move_owner (h : Told tr s) {error : Error} (hchild : s'.child = s.child)
    (hcanceled : s'.canceled = s.canceled)
    (howner : s'.owner.Knows (noteReturn (unjoined tr) out) (initResult tr s'.cycle) s'.cycle
      s'.impl.state (s.child s'.cycle)) : Told (tr ++ [(.owner error, out)]) s' :=
  h.move (fun _ _ => rfl) hchild hcanceled howner

theorem created (h : Told tr s) (hinv : Inv s) {error : Error} {n : Nat}
    (ho : s.owner = .create n) : Told (tr ++ [(.owner error, .silent)])
      { s with child := update s.child s.cycle .setId, owner := .storeId } := by
  have hknows := h.owner
  have hallows := hinv.current.owner
  rw [ho] at hknows hallows
  have hunborn := h.init s.cycle
  rw [hallows.2.1] at hunborn
  refine ⟨h.uncanceled, fun k => ?_, fun k => ?_, ?_⟩
  · rw [initResult_snoc]
    by_cases hk : k = s.cycle
    · subst hk
      simp only [update_self]
      exact hunborn
    · simp only [update_of_ne hk]
      exact h.init k
  · rw [initResult_snoc]
    by_cases hk : k = s.cycle
    · subst hk
      simp only [update_self]
      exact False.elim
    · simp only [update_of_ne hk]
      exact fun hleft => (h.left k hleft).snoc
  · rw [unjoined_snoc]
    simp only [update_self]
    exact ⟨hknows, by simp⟩

/-- What `start` returns is what `init` has returned. -/
theorem started (h : Told tr s) (hinv : Inv s) (ho : s.owner = .testStarted) :
    initResult tr s.cycle = some (decide (s.impl.state ≠ .stopped)) := by
  have hknows := h.owner
  have hallows := hinv.current.owner
  rw [ho] at hknows hallows
  obtain ⟨hunborn, hnot, -⟩ := hallows
  rcases hinv.current.phase with hs | ha | hq
  · exact absurd hs hnot
  · -- the child is in `run`, and the monitor is still running
    have hrun : s.impl.state = .running := by
      rcases hinv.current.active ha with ⟨hrun, -⟩ | ⟨-, hc | hreq⟩
      · exact hrun
      · rw [h.uncanceled] at hc
        cases hc
      · rw [ho] at hreq
        cases hreq
    rw [hrun, (h.init s.cycle).of_active ha]
    rfl
  · exact hknows.2 (Child.eq_of_quiet hq hunborn)

/-- The child of a `join` that is about to return true has left `run`. -/
theorem leftRun (h : Told tr s) (hinv : Inv s) (ho : s.owner = .join .setStopped) :
    LeftRun tr s.cycle := by
  have hknows := h.owner
  have hallows := hinv.current.owner
  rw [ho] at hknows hallows
  obtain ⟨-, -, hr⟩ := hknows
  have hquiet : (s.child s.cycle).Quiet := by
    refine hallows.2.resolve_right ?_
    rw [h.uncanceled]
    simp
  have hunborn : s.child s.cycle ≠ .unborn := by
    intro hc
    have hinit := h.init s.cycle
    rw [hc, hr] at hinit
    cases hinit
  refine h.left s.cycle ?_
  rcases Child.eq_of_quiet hquiet hunborn with hc | hc
  · rw [hc]
    exact hr
  · rw [hc]
    exact hr

/-- **A step of the owner**, and what it answers. -/
theorem owner_step (h : Told tr s) (hinv : Inv s) {error : Error} (hg : Succeeds s (.owner error))
    (hs : s.ownerStep error = some (out, s')) :
    Answers tr out ∧ Told (tr ++ [(.owner error, out)]) s' := by
  obtain ⟨owner, ho, hm⟩ := ownerMoves_of_step hs
  have hknows := h.owner
  rw [ho] at hknows
  cases hm with
  | stopped hst =>
      have hnone : unjoined tr = none := hknows.elim And.left fun hh => absurd hst hh.2.1
      exact ⟨trivial, h.move_owner rfl rfl hnone⟩
  | busy hst =>
      have hheld := hknows.resolve_left fun hn => hst hn.2
      exact ⟨by simp [Answers, hheld.1], h.move_owner rfl rfl (Or.inr hheld)⟩
  | setStarting => exact ⟨trivial, h.move_owner rfl rfl hknows⟩
  | created => exact ⟨trivial, h.created hinv ho⟩
  | again => exact ⟨trivial, h.move_owner rfl rfl hknows⟩
  | notCreated herror =>
      have hcreates : s.owner.Creates error := hg
      rw [ho] at hcreates
      rcases herror with rfl | ⟨rfl, hn⟩
      · simp [Owner.Creates] at hcreates
      · simp [Owner.Creates, hn] at hcreates
  | storeId => exact ⟨trivial, h.move_owner rfl rfl hknows⟩
  | waited => exact ⟨trivial, h.move_owner rfl rfl hknows⟩
  | detach => exact ⟨trivial, h.move_owner rfl rfl hknows⟩
  | started =>
      have hresult := h.started hinv ho
      refine ⟨⟨hknows.1, hresult⟩, h.move_owner rfl rfl ?_⟩
      by_cases hst : s.impl.state = .stopped
      · refine Or.inl ⟨?_, hst⟩
        rw [decide_eq_false (not_not.mpr hst)]
        exact hknows.1
      · rw [decide_eq_true hst] at hresult ⊢
        exact Or.inr ⟨rfl, hst, hresult⟩
  | goto hj =>
      cases hj with
      | notStopped hst =>
          exact ⟨trivial, h.move_owner rfl rfl (hknows.resolve_left fun hn => hst hn.2)⟩
      | notCurrent => exact ⟨trivial, h.move_owner rfl rfl hknows⟩
      | notRunning => exact ⟨trivial, h.move_owner rfl rfl hknows⟩
  | ret hj =>
      cases hj with
      | stopped hst =>
          have hnone : unjoined tr = none := hknows.elim And.left fun hh => absurd hst hh.2.1
          exact ⟨hnone, h.move_owner rfl rfl (Or.inl ⟨hnone, hst⟩)⟩
      | current hid =>
          obtain ⟨k, -, he⟩ := hinv.ids _ hid
          cases he
      | setStopped =>
          exact ⟨⟨hknows.1, h.leftRun hinv ho⟩, h.move_owner rfl rfl (Or.inl ⟨rfl, rfl⟩)⟩
  | setStopping => exact hknows.elim
  | requestCancel => exact hknows.elim
  | requestNone => exact hknows.elim

theorem call_step (h : Told tr s) {c : Call} (hc : c ≠ .cancel) (ho : s.owner = .idle) :
    Told (tr ++ [(.call c, .silent)]) (s.begin c) := by
  have hknows := h.owner
  rw [ho] at hknows
  cases c with
  | start | join => exact h.move (fun _ _ => rfl) rfl rfl hknows
  | cancel => exact absurd rfl hc

/-- A child gets false from its own `join`. -/
theorem child_answers (hinv : Inv s) {act : ChildAction}
    (hs : thread.step s (.child k act) = some (out, s')) : Answers tr out := by
  obtain ⟨impl, c, hm, rfl⟩ := Thread.child_step hs
  by_cases hk : k = s.cycle
  · subst hk
    have hcur := hinv.current
    generalize s.child s.cycle = c0 at hm hcur
    cases hm with
    | ret hj =>
        obtain ⟨-, he | he⟩ := hcur.join_child hj
        · cases he
        · cases he
          rfl
    | _ => trivial
  · obtain ⟨-, rfl, -⟩ := hinv.moves_other hk hm
    trivial

/-- **Every step** that meets the condition, and what it answers. -/
theorem step (h : Told tr s) (hinv : Inv s) (hg : Succeeds s a)
    (hs : thread.step s a = some (out, s')) :
    Answers tr out ∧ Inv s' ∧ Told (tr ++ [(a, out)]) s' := by
  have hawaits : Awaits s a := by
    cases a with
    | call | child => trivial
    | owner error =>
        intro _ hc
        rw [h.uncanceled] at hc
        cases hc
  have hinv' := hinv.step hawaits hs
  cases a with
  | call c =>
      obtain ⟨ho, he⟩ := Option.ite_none_right_eq_some.mp hs
      cases he
      exact ⟨trivial, hinv', h.call_step hg ho⟩
  | owner error =>
      obtain ⟨hanswers, htold⟩ := h.owner_step hinv hg hs
      exact ⟨hanswers, hinv', htold⟩
  | child k act => exact ⟨child_answers hinv hs, hinv', h.child_step hinv hs⟩

end Told

theorem told_of_trace (h : thread.Trace tr s) (hg : thread.Guarded Succeeds tr) :
    Inv s ∧ Told tr s :=
  h.guardedInv (fun tr s => Inv s ∧ Told tr s) ⟨inv_init, told_init⟩
    (fun _ _ _ _ _ hI hg hs => (hI.2.step hI.1 hg hs).2) hg

/-! ## The protocol -/

theorem Inv.join_keeps (h : Inv s) {act : ChildAction} {j : Join} (hj : s.child k = .join j)
    (hcanceled : s.canceled k = false) (hs : thread.step s (.child k act) = some (out, s')) :
    s'.impl = s.impl := by
  obtain ⟨impl, c, hm, rfl⟩ := Thread.child_step hs
  by_cases hk : k = s.cycle
  · have hcur := h.current
    rw [← hk, hj] at hcur
    rw [hj, hcanceled] at hm
    cases hm with
    | goto hj | ret hj => exact (hcur.join_child hj).1
    | cancel hc => cases hc
  · exact (h.moves_other hk hm).2.2.1

/-- `join` waits in one place. -/
theorem join_blocked {impl : Impl} {self : Pthread} {j : Join} (h : join impl self j = none) :
    j = .waitNotRunning ∧ impl.state = .running := by
  cases j with
  | waitNotRunning => exact ⟨rfl, by simpa [join] using h⟩
  | setStopped => cases h
  | testStopped | testCurrent =>
      simp only [join] at h
      split_ifs at h

/-- The own `join` of a child does not wait. -/
theorem Inv.join_proceeds (h : Inv s) {j : Join} (hj : s.child k = .join j) :
    ∃ out s', thread.step s (.child k .step) = some (out, s') := by
  have hk : k = s.cycle := by
    by_contra hk
    rcases Nat.lt_or_gt_of_ne hk with hlt | hgt
    · have hquiet := h.earlier k hlt
      rw [hj] at hquiet
      exact hquiet
    · rw [h.later k hgt] at hj
      cases hj
  have hcur := h.current
  rw [← hk, hj] at hcur
  cases hs : thread.step s (.child k .step) with
  | some r => exact ⟨r.1, r.2, rfl⟩
  | none =>
      have hnone := Option.map_eq_none_iff.mp hs
      simp only [hj, childStep] at hnone
      split at hnone <;> try cases hnone
      obtain ⟨rfl, -⟩ := join_blocked ‹_›
      exact hcur.active_join.elim

/-- A call of the owner waits only for a child that has not got to its write to the monitor. -/
theorem Inv.blocked (h : Inv s) {error : Error} (ho : s.owner ≠ .idle)
    (hs : s.ownerStep error = none) :
    s.owner = .waitNotStarting ∧ (s.child s.cycle).Starting ∨
      s.owner = .join .waitNotRunning ∧ (s.child s.cycle).Active := by
  have hallows := h.current.owner
  cases howner : s.owner with
  | idle => exact absurd howner ho
  | waitNotStarting =>
      rw [howner] at hallows
      simp only [State.ownerStep, howner] at hs
      split_ifs at hs with hst
      refine Or.inl ⟨rfl, ?_⟩
      rcases h.current.phase with hc | hc | hc
      · exact hc
      · rcases h.current.active hc with ⟨he, -⟩ | ⟨he, -⟩ <;> rw [he] at hst <;> cases hst
      · exact absurd ((h.current.quiet hc).2 hst) hallows.1
  | join j =>
      rw [howner] at hallows
      simp only [State.ownerStep, howner] at hs
      split at hs <;> try cases hs
      obtain ⟨rfl, hrun⟩ := join_blocked ‹_›
      refine Or.inr ⟨rfl, ?_⟩
      rcases h.current.phase with hc | hc | hc
      · exact absurd hc hallows
      · exact hc
      · exact absurd hrun (h.current.quiet hc).1
  | testStopped =>
      simp only [State.ownerStep, howner] at hs
      split_ifs at hs
  | create n =>
      simp only [State.ownerStep, howner] at hs
      cases error <;> simp at hs
      split_ifs at hs
  | requestCancel =>
      simp only [State.ownerStep, howner] at hs
      split at hs <;> cases hs
  | setStarting | storeId | detach | testStarted | setStopping =>
      simp only [State.ownerStep, howner] at hs
      cases hs

/-- **The start/join protocol.** In every history of an owner that calls `start` and `join`, and of
its children, in any interleaving:
every output answers as `Answers` says;
the thread is stopped whenever the owner is not in a call and has no unjoined child;
a step of a child of an earlier cycle, or of a child in its own `join`, changes nothing of the
thread, and such a `join` does not wait;
and a call of the owner waits only while the child is in `init` or in `run`, before its write to the
monitor. -/
theorem start_join_protocol (h : thread.Trace tr s) (hg : thread.Guarded Succeeds tr) :
    (∀ pre a out post, tr = pre ++ (a, out) :: post → Answers pre out) ∧
    (s.owner = .idle → unjoined tr = none → s.impl.state = .stopped) ∧
    (∀ k act out s', thread.step s (.child k act) = some (out, s') →
      (k < s.cycle ∨ ∃ j, s.child k = .join j) → s'.impl = s.impl) ∧
    (∀ k j, s.child k = .join j →
      ∃ out s', thread.step s (.child k .step) = some (out, s')) ∧
    ∀ error, s.owner ≠ .idle → thread.step s (.owner error) = none →
      s.owner = .waitNotStarting ∧ (s.child s.cycle).Starting ∨
      s.owner = .join .waitNotRunning ∧ (s.child s.cycle).Active := by
  obtain ⟨hinv, htold⟩ := told_of_trace h hg
  refine ⟨?_, fun ho hu => ?_, ?_, fun k j hj => hinv.join_proceeds hj,
    fun error ho hs => hinv.blocked ho hs⟩
  · rintro pre a out post rfl
    obtain ⟨s0, s1, h0, hg0, hga, hs⟩ := h.guarded_split hg
    obtain ⟨hinv0, htold0⟩ := told_of_trace h0 hg0
    exact (htold0.step hinv0 hga hs).1
  · have hknows := htold.owner
    rw [ho] at hknows
    rcases hknows with ⟨-, hst⟩ | ⟨hsome, -⟩
    · exact hst
    · rw [hu] at hsome
      cases hsome
  · rintro k act out s' hs (hk | ⟨j, hj⟩)
    · obtain ⟨impl, c, hm, rfl⟩ := child_step hs
      exact (hinv.moves_other (Nat.ne_of_lt hk) hm).2.2.1
    · exact hinv.join_keeps hj (htold.uncanceled k) hs

/-- A cycle whose child calls `join` and then `exit` in `run`, and one whose `init` fails after
`pthread_create` had to be tried again. -/
def twoCycles : List Action :=
  [.call .start, .owner .success, .owner .success, .owner .success,
    .child 1 .step, .child 1 (.initReturn true), .child 1 .step, .owner .success,
    .owner .success, .child 1 .callJoin, .owner .success, .owner .success,
    .call .join, .owner .success, .owner .success, .child 1 .step, .child 1 .step,
    .child 1 (.leave true), .child 1 .step, .owner .success, .owner .success,
    .call .start, .owner .success, .owner .success, .owner .again, .owner .success,
    .child 2 .step, .child 1 .step, .child 2 (.initReturn false), .child 2 .step, .owner .success,
    .owner .success, .owner .success, .owner .success, .call .join, .owner .success]

theorem start_join_protocol_two_cycles :
    ∃ tr s, thread.Trace tr s ∧ tr.map Prod.fst = twoCycles ∧ thread.Guarded Succeeds tr ∧
      (tr.map Prod.snd).filter (· ≠ .silent) = [.start 1 true, .selfJoin false, .join 1 true,
        .ended, .start 2 false, .join 2 false] ∧
      (∀ pre a out post, tr = pre ++ (a, out) :: post → Answers pre out) ∧
      s.impl.state = .stopped := by
  have htrace := Machine.Trace.of_run (M := thread) twoCycles rfl
  have hguard := Machine.guarded_of_run (M := thread) (G := Succeeds) twoCycles rfl (by decide)
  obtain ⟨hanswers, hstopped, -⟩ := start_join_protocol htrace hguard
  exact ⟨_, _, htrace, rfl, hguard, by decide, hanswers, hstopped rfl rfl⟩

end Lunchbox.Thread
