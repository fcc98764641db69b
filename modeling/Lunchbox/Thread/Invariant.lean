import Lunchbox.Thread.Model

set_option autoImplicit false

/-! # The invariant of a thread and its children

At any time at most the child of the current cycle can change the monitor; the children of earlier
cycles are quiet. Where that child is and where the owner is restrict each other and the value of
the monitor (`Current`). A canceled child is the exception: the monitor is `STATE_STOPPING` while it
is still active. The invariant is kept by every step, apart from a `join` that returns true in a
canceled cycle while its child is active (`Awaits`).
-/

namespace Lunchbox.Thread

open StateMachine Function

/-! ## Steps of `join` -/

/-- The steps of `join`, one by one. -/
inductive JoinMoves (impl : Impl) (self : Pthread) : Join → Next → Impl → Prop
  | stopped (h : impl.state = .stopped) : JoinMoves impl self .testStopped (.ret false) impl
  | notStopped (h : impl.state ≠ .stopped) :
      JoinMoves impl self .testStopped (.goto .testCurrent) impl
  | current (h : impl.id = some self) : JoinMoves impl self .testCurrent (.ret false) impl
  | notCurrent (h : impl.id ≠ some self) :
      JoinMoves impl self .testCurrent (.goto .waitNotRunning) impl
  | notRunning (h : impl.state ≠ .running) :
      JoinMoves impl self .waitNotRunning (.goto .setStopped) impl
  | setStopped : JoinMoves impl self .setStopped (.ret true) { impl with state := .stopped }

theorem joinMoves_of_join {impl impl' : Impl} {self : Pthread} {j : Join} {next : Next}
    (h : join impl self j = some (next, impl')) : JoinMoves impl self j next impl' := by
  cases j with
  | testStopped =>
      simp only [join] at h
      split_ifs at h with hst <;> cases h
      · exact .stopped hst
      · exact .notStopped hst
  | testCurrent =>
      simp only [join] at h
      split_ifs at h with hid <;> cases h
      · exact .current hid
      · exact .notCurrent hid
  | waitNotRunning =>
      simp only [join] at h
      split_ifs at h with hst
      cases h
      exact .notRunning hst
  | setStopped =>
      cases h
      exact .setStopped

/-! ## Steps of a child -/

/-- The steps of a child, one by one. -/
inductive Moves (k : Nat) (canceled : Bool) (impl : Impl) :
    Child → ChildAction → Output → Impl → Child → Prop
  | setId : Moves k canceled impl .setId .step .silent { impl with id := some (.child k) } .init
  | initReturn (b : Bool) : Moves k canceled impl .init (.initReturn b) .silent impl (.setState b)
  | ready : Moves k canceled impl (.setState true) .step .silent
      { impl with state := .running } .run
  | failed : Moves k canceled impl (.setState false) .step .silent
      { impl with state := .stopped } .terminate
  | work : Moves k canceled impl .run .work .silent impl .run
  | callJoin : Moves k canceled impl .run .callJoin .silent impl (.join .testStopped)
  | goto {j j' : Join} {impl' : Impl} (h : JoinMoves impl (.child k) j (.goto j') impl') :
      Moves k canceled impl (.join j) .step .silent impl' (.join j')
  | ret {j : Join} {b : Bool} {impl' : Impl} (h : JoinMoves impl (.child k) j (.ret b) impl') :
      Moves k canceled impl (.join j) .step (.selfJoin b) impl' .run
  | leave (byExit : Bool) : Moves k canceled impl .run (.leave byExit) .silent impl .exit
  | exit : Moves k canceled impl .exit .step .silent { impl with state := .stopping } .terminate
  | terminate : Moves k canceled impl .terminate .step .ended impl .ended
  | cancel {c : Child} (hc : canceled = true) (hu : c ≠ .unborn) (he : c ≠ .ended) :
      Moves k canceled impl c .cancel .ended impl .ended

variable {k : Nat} {canceled : Bool} {impl impl' : Impl} {c c' : Child} {a : ChildAction}
  {out : Output}

theorem moves_of_childStep (h : childStep k canceled impl c a = some (out, impl', c')) :
    Moves k canceled impl c a out impl' c' := by
  unfold childStep at h
  split at h
  case h_7 =>
    split at h
    · cases h
    · cases h
      exact .goto (joinMoves_of_join ‹_›)
    · cases h
      exact .ret (joinMoves_of_join ‹_›)
  case h_11 =>
    obtain ⟨⟨hc, hu, he⟩, h⟩ := Option.ite_none_right_eq_some.mp h
    cases h
    exact .cancel hc hu he
  all_goals cases h
  all_goals constructor

/-! ## Steps of the owner -/

/-- The steps of the owner, one by one. -/
inductive OwnerMoves (s : State) (error : Error) : Owner → Output → State → Prop
  | stopped (h : s.impl.state = .stopped) :
      OwnerMoves s error .testStopped .silent { s with owner := .setStarting }
  | busy (h : s.impl.state ≠ .stopped) :
      OwnerMoves s error .testStopped .busy { s with owner := .idle }
  | setStarting : OwnerMoves s error .setStarting .silent
      { s.setState .starting with cycle := s.cycle + 1, owner := .create 9 }
  | created {n : Nat} (h : error = .success) : OwnerMoves s error (.create n) .silent
      { s with child := update s.child s.cycle .setId, owner := .storeId }
  | again {n : Nat} (h : error = .again) (hn : n ≠ 0) :
      OwnerMoves s error (.create n) .silent { s with owner := .create (n - 1) }
  | notCreated {n : Nat} (h : error = .other ∨ error = .again ∧ n = 0) :
      OwnerMoves s error (.create n) .notCreated { s with owner := .idle }
  | storeId : OwnerMoves s error .storeId .silent
      { s with impl := { s.impl with id := some (.child s.cycle) }, owner := .waitNotStarting }
  | waited (h : s.impl.state ≠ .starting) :
      OwnerMoves s error .waitNotStarting .silent { s with owner := .detach }
  | detach : OwnerMoves s error .detach .silent { s with owner := .testStarted }
  | started : OwnerMoves s error .testStarted (.start s.cycle (s.impl.state ≠ .stopped))
      { s with owner := .idle }
  | goto {j j' : Join} {impl : Impl} (h : JoinMoves s.impl .owner j (.goto j') impl) :
      OwnerMoves s error (.join j) .silent { s with impl := impl, owner := .join j' }
  | ret {j : Join} {b : Bool} {impl : Impl} (h : JoinMoves s.impl .owner j (.ret b) impl) :
      OwnerMoves s error (.join j) (.join s.cycle b) { s with impl := impl, owner := .idle }
  | setStopping : OwnerMoves s error .setStopping .silent
      { s.setState .stopping with owner := .requestCancel }
  | requestCancel {k : Nat} (h : s.impl.id = some (.child k)) :
      OwnerMoves s error .requestCancel .silent
        { s with canceled := update s.canceled k true, owner := .idle }
  | requestNone (h : ∀ k, s.impl.id ≠ some (.child k)) :
      OwnerMoves s error .requestCancel .silent { s with owner := .idle }

variable {s s' : State} {error : Error}

theorem ownerMoves_of_step (h : s.ownerStep error = some (out, s')) :
    ∃ owner, s.owner = owner ∧ OwnerMoves s error owner out s' := by
  refine ⟨s.owner, rfl, ?_⟩
  unfold State.ownerStep at h
  split at h
  case h_1 => cases h
  case h_2 ho =>
    rw [ho]
    split_ifs at h with hst <;> cases h
    · exact .stopped hst
    · exact .busy hst
  case h_4 ho =>
    rw [ho]
    cases error with
    | success =>
        cases h
        exact .created rfl
    | again =>
        dsimp only at h
        split_ifs at h with hn <;> cases h
        · exact .notCreated (Or.inr ⟨rfl, hn⟩)
        · exact .again rfl hn
    | other =>
        cases h
        exact .notCreated (Or.inl rfl)
  case h_6 ho =>
    rw [ho]
    split_ifs at h with hst
    cases h
    exact .waited hst
  case h_9 ho =>
    rw [ho]
    split at h <;> cases h
    · exact .goto (joinMoves_of_join ‹_›)
    · exact .ret (joinMoves_of_join ‹_›)
  case h_11 ho =>
    rw [ho]
    split at h <;> cases h
    · exact .requestCancel ‹_›
    · exact .requestNone ‹_›
  all_goals
    rename_i ho
    rw [ho]
    cases h
    constructor

/-! ## Phases of a child -/

namespace Child

/-- The child has not yet told the owner whether it is ready. -/
def Starting : Child → Prop
  | .setId | .init | .setState _ => True
  | _ => False

/-- The child is in `run`, or in `exit` before its last write to the monitor. A child that calls
`join` in `run` is current and does not wait there. -/
def Active : Child → Prop
  | .run | .join .testStopped | .join .testCurrent | .exit => True
  | _ => False

/-- The child takes no step of `run` and makes no write to the monitor any more. -/
def Quiet : Child → Prop
  | .unborn | .terminate | .ended => True
  | _ => False

instance : DecidablePred Quiet
  | .unborn | .terminate | .ended => isTrue trivial
  | .setId | .init | .setState _ | .run | .join _ | .exit => isFalse False.elim

variable {c : Child}

theorem Active.ne_unborn (h : c.Active) : c ≠ .unborn := by
  rintro rfl
  exact h

theorem Active.not_starting (h : c.Active) : ¬ c.Starting := by
  cases c with
  | setId | init | setState => exact h.elim
  | _ => exact False.elim

theorem Quiet.not_starting (h : c.Quiet) : ¬ c.Starting := by
  cases c with
  | setId | init | setState => exact h.elim
  | _ => exact False.elim

theorem Quiet.not_active (h : c.Quiet) : ¬ c.Active := by
  cases c with
  | unborn | terminate | ended => exact False.elim
  | _ => exact h.elim

end Child

/-- All that a quiet child can do is to end. -/
theorem Moves.of_quiet (h : Moves k canceled impl c a out impl' c') (hc : c.Quiet) :
    out = .ended ∧ impl' = impl ∧ c' = .ended := by
  cases h with
  | terminate => exact ⟨rfl, rfl, rfl⟩
  | cancel => exact ⟨rfl, rfl, rfl⟩
  | _ => exact hc.elim

theorem JoinMoves.id {self : Pthread} {j : Join} {next : Next}
    (h : JoinMoves impl self j next impl') : impl'.id = impl.id := by
  cases h <;> rfl

theorem Moves.id (h : Moves k canceled impl c a out impl' c') :
    impl'.id = impl.id ∨ impl'.id = some (.child k) := by
  cases h with
  | setId => exact Or.inr rfl
  | goto hj | ret hj => exact Or.inl hj.id
  | _ => exact Or.inl rfl

/-- A thread that is current returns from its own `join` with false, and writes nothing. -/
theorem JoinMoves.of_current {self : Pthread} {j : Join} {next : Next}
    (h : JoinMoves impl self j next impl') (hid : impl.id = some self)
    (hj : j = .testStopped ∨ j = .testCurrent) :
    impl' = impl ∧ (next = .goto .testCurrent ∨ next = .ret false) := by
  cases h with
  | stopped => exact ⟨rfl, Or.inr rfl⟩
  | notStopped => exact ⟨rfl, Or.inl rfl⟩
  | current => exact ⟨rfl, Or.inr rfl⟩
  | notCurrent hne => exact absurd hid hne
  | notRunning | setStopped => simp at hj

/-! ## The current cycle -/

/-- What the owner knows of the monitor and of the child of the current cycle. -/
def Owner.Allows (state : ThreadState) (canceled : Bool) (c : Child) : Owner → Prop
  | .setStarting => state = .stopped
  | .create _ => state = .starting ∧ c = .unborn ∧ canceled = false
  | .storeId | .waitNotStarting => c ≠ .unborn ∧ canceled = false
  | .detach | .testStarted => c ≠ .unborn ∧ ¬ c.Starting ∧ canceled = false
  | .join .setStopped => ¬ c.Starting ∧ (c.Quiet ∨ canceled = true)
  | .requestCancel => ¬ c.Starting ∧ state = .stopping
  | _ => ¬ c.Starting

/-- The owner, the monitor and the child of the current cycle. -/
structure Current (k : Nat) (impl : Impl) (owner : Owner) (canceled : Bool) (c : Child) : Prop where
  phase : c.Starting ∨ c.Active ∨ c.Quiet
  starting : c.Starting → impl.state = .starting ∧ canceled = false
  active : c.Active → impl.state = .running ∧ canceled = false ∨
    impl.state = .stopping ∧ (canceled = true ∨ owner = .requestCancel)
  quiet : c.Quiet → impl.state ≠ .running ∧ (impl.state = .starting → c = .unborn)
  id : c ≠ .unborn → c ≠ .setId → impl.id = some (.child k)
  owner : owner.Allows impl.state canceled c

variable {owner : Owner} {state state' : ThreadState}

/-- A step of the child does not take back what the owner knows. -/
theorem Owner.Allows.move (h : owner.Allows state canceled c) (hc : c ≠ .unborn)
    (hc' : c' ≠ .unborn) (hstarting : c'.Starting → c.Starting) (hquiet : c.Quiet → c'.Quiet)
    (hstopped : state = .stopped → state' = .stopped)
    (hstopping : state = .stopping → state' = .stopping) : owner.Allows state' canceled c' := by
  cases owner with
  | setStarting => exact hstopped h
  | create => exact absurd h.2.1 hc
  | storeId | waitNotStarting => exact ⟨hc', h.2⟩
  | detach | testStarted => exact ⟨hc', mt hstarting h.2.1, h.2.2⟩
  | requestCancel => exact ⟨mt hstarting h.1, hstopping h.2⟩
  | idle | testStopped | setStopping => exact mt hstarting h
  | join j =>
      cases j with
      | setStopped => exact ⟨mt hstarting h.1, h.2.imp_left hquiet⟩
      | _ => exact mt hstarting h

namespace Current

theorem named_of_active (h : Current k impl owner canceled c) (hc : c.Active) :
    impl.id = some (.child k) := by
  refine h.id hc.ne_unborn ?_
  rintro rfl
  exact hc

theorem active_join {j : Join} (h : Current k impl owner canceled (.join j)) :
    (Child.join j).Active := by
  rcases h.phase with hs | ha | hq
  · exact hs.elim
  · exact ha
  · exact hq.elim

/-- The child's own `join` returns false, and writes nothing. -/
theorem join_child {j : Join} {next : Next} (h : Current k impl owner canceled (.join j))
    (hj : JoinMoves impl (.child k) j next impl') :
    impl' = impl ∧ (next = .goto .testCurrent ∨ next = .ret false) := by
  have hactive := h.active_join
  refine hj.of_current (h.named_of_active hactive) ?_
  cases j with
  | testStopped => exact Or.inl rfl
  | testCurrent => exact Or.inr rfl
  | waitNotRunning | setStopped => exact hactive.elim

/-- The owner goes on, and nothing else changes. -/
theorem move_owner {owner' : Owner} (h : Current k impl owner canceled c)
    (hne : owner ≠ .requestCancel) (hallows : owner'.Allows impl.state canceled c) :
    Current k impl owner' canceled c := by
  refine ⟨h.phase, h.starting, fun ha => ?_, h.quiet, h.id, hallows⟩
  exact (h.active ha).imp_right fun hst => ⟨hst.1, Or.inl (hst.2.resolve_right hne)⟩

/-- Steps inside of `run`. -/
theorem move_active (h : Current k impl owner canceled c) (hc : c.Active) (hc' : c'.Active) :
    Current k impl owner canceled c' := by
  refine ⟨Or.inr (Or.inl hc'), fun hs => absurd hs hc'.not_starting, fun _ => h.active hc,
    fun hq => absurd hc' hq.not_active, fun _ _ => h.named_of_active hc, ?_⟩
  exact h.owner.move hc.ne_unborn hc'.ne_unborn (fun hs => absurd hs hc'.not_starting)
    (fun hq => absurd hc hq.not_active) (fun he => he) fun he => he

/-- The child ends, at its end or because it is canceled. -/
theorem move_ended (h : Current k impl owner canceled c) (hu : c ≠ .unborn)
    (hc : c.Quiet ∨ canceled = true) : Current k impl owner canceled .ended := by
  have hstate : impl.state ≠ .running ∧ impl.state ≠ .starting := by
    rcases h.phase with hs | ha | hq
    · have hcanceled := hc.resolve_left fun hq => hq.not_starting hs
      rw [(h.starting hs).2] at hcanceled
      cases hcanceled
    · have hcanceled := hc.resolve_left fun hq => hq.not_active ha
      rcases h.active ha with ⟨-, hf⟩ | ⟨hst, -⟩
      · rw [hcanceled] at hf
        cases hf
      · simp [hst]
    · obtain ⟨hrun, hst⟩ := h.quiet hq
      exact ⟨hrun, fun he => hu (hst he)⟩
  have hid : impl.id = some (.child k) := by
    refine h.id hu ?_
    rintro rfl
    rw [(h.starting trivial).2] at hc
    simp [Child.Quiet] at hc
  refine ⟨Or.inr (Or.inr trivial), False.elim, False.elim,
    fun _ => ⟨hstate.1, fun he => absurd he hstate.2⟩, fun _ _ => hid, ?_⟩
  exact h.owner.move hu (by simp) False.elim (fun _ => trivial) (fun he => he) fun he => he

/-- **A step of the current child.** -/
theorem move (h : Current k impl owner canceled c)
    (hm : Moves k canceled impl c a out impl' c') : Current k impl' owner canceled c' := by
  cases hm with
  | setId =>
      have hst := h.starting trivial
      refine ⟨Or.inl trivial, fun _ => hst, False.elim, False.elim, fun _ _ => rfl, ?_⟩
      exact h.owner.move (by simp) (by simp) (fun _ => trivial) False.elim (fun he => he)
        fun he => he
  | initReturn b =>
      have hst := h.starting trivial
      have hid := h.id (by simp) (by simp)
      refine ⟨Or.inl trivial, fun _ => hst, False.elim, False.elim, fun _ _ => hid, ?_⟩
      exact h.owner.move (by simp) (by simp) (fun _ => trivial) False.elim (fun he => he)
        fun he => he
  | ready =>
      obtain ⟨hst, hcanceled⟩ := h.starting trivial
      have hid := h.id (by simp) (by simp)
      refine ⟨Or.inr (Or.inl trivial), False.elim, fun _ => Or.inl ⟨rfl, hcanceled⟩, False.elim,
        fun _ _ => hid, ?_⟩
      exact h.owner.move (by simp) (by simp) False.elim False.elim (by simp [hst]) (by simp [hst])
  | failed =>
      obtain ⟨hst, hcanceled⟩ := h.starting trivial
      have hid := h.id (by simp) (by simp)
      refine ⟨Or.inr (Or.inr trivial), False.elim, False.elim, fun _ => by simp, fun _ _ => hid, ?_⟩
      exact h.owner.move (by simp) (by simp) False.elim False.elim (by simp) (by simp [hst])
  | work => exact h
  | callJoin => exact h.move_active trivial trivial
  | leave => exact h.move_active trivial trivial
  | goto hj =>
      obtain ⟨rfl, he | he⟩ := h.join_child hj <;> cases he
      exact h.move_active h.active_join trivial
  | ret hj =>
      obtain ⟨rfl, -⟩ := h.join_child hj
      exact h.move_active h.active_join trivial
  | exit =>
      have hid := h.named_of_active trivial
      refine ⟨Or.inr (Or.inr trivial), False.elim, False.elim, fun _ => by simp, fun _ _ => hid, ?_⟩
      refine h.owner.move (by simp) (by simp) False.elim False.elim ?_ fun _ => rfl
      intro hstopped
      rcases h.active trivial with ⟨hst, -⟩ | ⟨hst, -⟩ <;> rw [hst] at hstopped <;> cases hstopped
  | terminate => exact h.move_ended (by simp) (Or.inl trivial)
  | cancel hcanceled hu => exact h.move_ended hu (Or.inr hcanceled)

end Current

/-! ## All cycles -/

structure Inv (s : State) : Prop where
  later : ∀ k, s.cycle < k → s.child k = .unborn
  earlier : ∀ k, k < s.cycle → (s.child k).Quiet
  ids : ∀ p, s.impl.id = some p → ∃ k, k ≤ s.cycle ∧ p = .child k
  canceled : ∀ k, s.canceled k = true → k ≤ s.cycle
  current : Current s.cycle s.impl s.owner (s.canceled s.cycle) (s.child s.cycle)

/-- The condition on the steps: `join` returns true in a canceled cycle only once its child is
quiet. -/
def Awaits (s : State) : Action → Prop
  | .owner _ =>
      s.owner = .join .setStopped → s.canceled s.cycle = true → (s.child s.cycle).Quiet
  | _ => True

instance (s : State) : DecidablePred (Awaits s)
  | .owner _ => inferInstanceAs (Decidable (_ → _ → _))
  | .call _ | .child _ _ => isTrue trivial

theorem inv_init : Inv thread.init := by
  refine ⟨fun _ _ => rfl, fun _ _ => trivial, fun p hp => ?_, fun k hk => ?_, ?_⟩
  · cases hp
  · cases hk
  · exact ⟨Or.inr (Or.inr trivial), False.elim, False.elim, fun _ => by simp [thread],
      fun hu => absurd rfl hu, fun hs => hs⟩

/-- What a step of a child does. -/
theorem child_step {k : Nat} {a : ChildAction} (h : thread.step s (.child k a) = some (out, s')) :
    ∃ impl c, Moves k (s.canceled k) s.impl (s.child k) a out impl c ∧
      s' = { s with impl := impl, child := update s.child k c } := by
  obtain ⟨⟨out', impl, c⟩, hr, he⟩ := Option.map_eq_some_iff.mp h
  cases he
  exact ⟨impl, c, moves_of_childStep hr, rfl⟩

namespace Inv

/-- A child of another cycle than the current one can only end. -/
theorem moves_other (h : Inv s) {k : Nat} (hk : k ≠ s.cycle)
    (hm : Moves k (s.canceled k) s.impl (s.child k) a out impl' c') :
    k < s.cycle ∧ out = .ended ∧ impl' = s.impl ∧ c' = .ended := by
  rcases Nat.lt_or_gt_of_ne hk with hlt | hgt
  · exact ⟨hlt, hm.of_quiet (h.earlier k hlt)⟩
  · rw [h.later k hgt] at hm
    cases hm with
    | cancel hc hu => exact absurd rfl hu

theorem child_step (h : Inv s) {k : Nat} (hs : thread.step s (.child k a) = some (out, s')) :
    Inv s' := by
  obtain ⟨impl, c, hm, rfl⟩ := Thread.child_step hs
  by_cases hk : k = s.cycle
  · subst hk
    refine ⟨fun m hlt => ?_, fun m hlt => ?_, fun p hp => ?_, h.canceled, ?_⟩
    · exact (update_of_ne (Nat.ne_of_gt hlt) _ _).trans (h.later m hlt)
    · simp only [update_of_ne (Nat.ne_of_lt hlt)]
      exact h.earlier m hlt
    · rcases hm.id with he | he
      · exact h.ids p (he ▸ hp)
      · exact ⟨s.cycle, le_refl _, (Option.some.inj (he.symm.trans hp)).symm⟩
    · simp only [update_self]
      exact h.current.move hm
  · obtain ⟨hlt, -, rfl, rfl⟩ := h.moves_other hk hm
    refine ⟨fun m hm => ?_, fun m hm => ?_, h.ids, h.canceled, ?_⟩
    · have hgt : s.cycle < m := hm
      exact (update_of_ne (by omega) _ _).trans (h.later m hm)
    · by_cases hmk : m = k
      · simp only [hmk, update_self]
        trivial
      · simp only [update_of_ne hmk]
        exact h.earlier m hm
    · simp only [update_of_ne (Ne.symm hk)]
      exact h.current

/-- The owner goes on, and nothing else changes. -/
theorem move_owner (h : Inv s) {owner : Owner} (hne : s.owner ≠ .requestCancel)
    (hallows : owner.Allows s.impl.state (s.canceled s.cycle) (s.child s.cycle)) :
    Inv { s with owner := owner } :=
  ⟨h.later, h.earlier, h.ids, h.canceled, h.current.move_owner hne hallows⟩

theorem quiet_of_stopped (h : Inv s) (hst : s.impl.state = .stopped) : (s.child s.cycle).Quiet := by
  rcases h.current.phase with hs | ha | hq
  · rw [(h.current.starting hs).1] at hst
    cases hst
  · rcases h.current.active ha with ⟨hrun, -⟩ | ⟨hstop, -⟩
    · rw [hrun] at hst
      cases hst
    · rw [hstop] at hst
      cases hst
  · exact hq

theorem set_starting (h : Inv s) (ho : s.owner = .setStarting) :
    Inv { s.setState .starting with cycle := s.cycle + 1, owner := .create 9 } := by
  have hst : s.impl.state = .stopped := by
    have := h.current.owner
    rwa [ho] at this
  have hunborn := h.later (s.cycle + 1) (Nat.lt_succ_self _)
  have hcanceled : s.canceled (s.cycle + 1) = false := by
    by_contra hc
    have := h.canceled _ (Bool.eq_true_of_not_eq_false hc)
    omega
  refine ⟨fun k hk => h.later k (Nat.lt_of_succ_lt hk), fun k hk => ?_, fun p hp => ?_,
    fun k hk => Nat.le_succ_of_le (h.canceled k hk), ?_⟩
  · rcases Nat.lt_succ_iff_lt_or_eq.mp hk with hlt | rfl
    · exact h.earlier k hlt
    · exact h.quiet_of_stopped hst
  · obtain ⟨k, hk, rfl⟩ := h.ids p hp
    exact ⟨k, Nat.le_succ_of_le hk, rfl⟩
  · show Current (s.cycle + 1) _ (.create 9) (s.canceled (s.cycle + 1)) (s.child (s.cycle + 1))
    rw [hunborn, hcanceled]
    exact ⟨Or.inr (Or.inr trivial), False.elim, False.elim, fun _ => by simp [State.setState],
      fun hu => absurd rfl hu, rfl, rfl, rfl⟩

theorem created (h : Inv s) {n : Nat} (ho : s.owner = .create n) :
    Inv { s with child := update s.child s.cycle .setId, owner := .storeId } := by
  have hallows := h.current.owner
  rw [ho] at hallows
  obtain ⟨hst, hunborn, hcanceled⟩ := hallows
  refine ⟨fun k hk => ?_, fun k hk => ?_, h.ids, h.canceled, ?_⟩
  · exact (update_of_ne (Nat.ne_of_gt hk) _ _).trans (h.later k hk)
  · simp only [update_of_ne (Nat.ne_of_lt hk)]
    exact h.earlier k hk
  · simp only [update_self]
    exact ⟨Or.inl trivial, fun _ => ⟨hst, hcanceled⟩, False.elim, False.elim,
      fun _ hne => absurd rfl hne, by simp, hcanceled⟩

theorem store_id (h : Inv s) (ho : s.owner = .storeId) :
    Inv { s with
      impl := { s.impl with id := some (.child s.cycle) }
      owner := .waitNotStarting } := by
  have hallows := h.current.owner
  rw [ho] at hallows
  have hcurrent : Current _ _ .waitNotStarting _ _ := h.current.move_owner (by simp [ho]) hallows
  refine ⟨h.later, h.earlier, fun p hp => ?_, h.canceled, ?_⟩
  · cases hp
    exact ⟨s.cycle, le_refl _, rfl⟩
  · exact ⟨hcurrent.phase, hcurrent.starting, hcurrent.active, hcurrent.quiet, fun _ _ => rfl,
      hcurrent.owner⟩

/-- The owner's `join` returns true. -/
theorem joined (h : Inv s) (hq : (s.child s.cycle).Quiet) :
    Inv { s.setState .stopped with owner := .idle } := by
  exact ⟨h.later, h.earlier, h.ids, h.canceled, Or.inr (Or.inr hq),
    fun hs => absurd hs hq.not_starting, fun ha => absurd ha hq.not_active,
    fun _ => by simp [State.setState], h.current.id, hq.not_starting⟩

theorem set_stopping (h : Inv s) (ho : s.owner = .setStopping) :
    Inv { s.setState .stopping with owner := .requestCancel } := by
  have hnot : ¬ (s.child s.cycle).Starting := by
    have := h.current.owner
    rwa [ho] at this
  exact ⟨h.later, h.earlier, h.ids, h.canceled, h.current.phase, fun hs => absurd hs hnot,
    fun _ => Or.inr ⟨rfl, Or.inr rfl⟩, fun _ => by simp [State.setState], h.current.id, hnot, rfl⟩

theorem request_cancel (h : Inv s) (ho : s.owner = .requestCancel) {k : Nat}
    (hid : s.impl.id = some (.child k)) :
    Inv { s with canceled := update s.canceled k true, owner := .idle } := by
  have hallows := h.current.owner
  rw [ho] at hallows
  obtain ⟨hnot, hst⟩ := hallows
  refine ⟨h.later, h.earlier, h.ids, fun m hm => ?_, h.current.phase, fun hs => absurd hs hnot,
    fun ha => ?_, h.current.quiet, h.current.id, hnot⟩
  · by_cases hmk : m = k
    · obtain ⟨k', hk', he⟩ := h.ids _ hid
      cases he
      rwa [hmk]
    · simp only [update_of_ne hmk] at hm
      exact h.canceled m hm
  · -- the request goes to the child of this cycle
    have hk := h.current.named_of_active ha
    rw [hid] at hk
    cases hk
    exact Or.inr ⟨hst, Or.inl (update_self _ _ _)⟩

/-- The request goes to no thread. -/
theorem request_none (h : Inv s) (ho : s.owner = .requestCancel)
    (hid : ∀ k, s.impl.id ≠ some (.child k)) : Inv { s with owner := .idle } := by
  have hallows := h.current.owner
  rw [ho] at hallows
  refine ⟨h.later, h.earlier, h.ids, h.canceled, h.current.phase, h.current.starting,
    fun ha => absurd (h.current.named_of_active ha) (hid _), h.current.quiet, h.current.id,
    hallows.1⟩

/-- The owner's `join` gets to its last step. -/
theorem waited (h : Inv s) (ho : s.owner = .join .waitNotRunning) (hrun : s.impl.state ≠ .running) :
    Inv { s with owner := .join .setStopped } := by
  have hallows := h.current.owner
  have hne : s.owner ≠ .requestCancel := by simp [ho]
  rw [ho] at hallows
  refine h.move_owner hne ⟨hallows, ?_⟩
  rcases h.current.phase with hstart | ha | hq
  · exact absurd hstart hallows
  · rcases h.current.active ha with ⟨hr, -⟩ | ⟨-, hc | hreq⟩
    · exact absurd hr hrun
    · exact Or.inr hc
    · exact absurd hreq hne
  · exact Or.inl hq

/-- **A step of the owner.** -/
theorem owner_step (h : Inv s) (hg : Awaits s (.owner error))
    (hs : s.ownerStep error = some (out, s')) : Inv s' := by
  obtain ⟨owner, ho, hm⟩ := ownerMoves_of_step hs
  have hallows := h.current.owner
  rw [ho] at hallows
  cases hm with
  | stopped hst => exact h.move_owner (by simp [ho]) hst
  | busy => exact h.move_owner (by simp [ho]) hallows
  | setStarting => exact h.set_starting ho
  | created => exact h.created ho
  | again => exact h.move_owner (by simp [ho]) hallows
  | notCreated =>
      refine h.move_owner (by simp [ho]) ?_
      rw [hallows.2.1]
      exact False.elim
  | storeId => exact h.store_id ho
  | waited hst =>
      refine h.move_owner (by simp [ho]) ⟨hallows.1, fun hc => ?_, hallows.2⟩
      exact hst (h.current.starting hc).1
  | detach => exact h.move_owner (by simp [ho]) hallows
  | started => exact h.move_owner (by simp [ho]) hallows.2.1
  | goto hj =>
      cases hj with
      | notStopped => exact h.move_owner (by simp [ho]) hallows
      | notCurrent => exact h.move_owner (by simp [ho]) hallows
      | notRunning hrun => exact h.waited ho hrun
  | ret hj =>
      cases hj with
      | stopped => exact h.move_owner (by simp [ho]) hallows
      | current => exact h.move_owner (by simp [ho]) hallows
      | setStopped => exact h.joined (hallows.2.elim (fun hq => hq) fun hc => hg ho hc)
  | setStopping => exact h.set_stopping ho
  | requestCancel hid => exact h.request_cancel ho hid
  | requestNone hid => exact h.request_none ho hid

/-- **Every step that meets the condition keeps the invariant.** -/
theorem step (h : Inv s) {a : Action} (hg : Awaits s a) (hs : thread.step s a = some (out, s')) :
    Inv s' := by
  cases a with
  | call c =>
      obtain ⟨ho, he⟩ := Option.ite_none_right_eq_some.mp hs
      cases he
      have hallows := h.current.owner
      rw [ho] at hallows
      cases c <;> exact h.move_owner (by simp [ho]) hallows
  | owner error => exact h.owner_step hg hs
  | child k a => exact h.child_step hs

end Inv

end Lunchbox.Thread
