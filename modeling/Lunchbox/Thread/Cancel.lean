import Lunchbox.Thread.Invariant

set_option autoImplicit false

/-! # `join` after `cancel`

`cancel` writes `STATE_STOPPING` before the child has stopped, so that a `join` after it does not
wait. The child of a cycle is quiet whenever `join` has returned true in it, in all states of a run,
exactly if in canceled cycles `join` comes to its end only once the child is quiet
(`joinedQuiet_iff`). The owner makes sure of that by calling `join` in a canceled cycle only after
the child has gone (`join_awaits`). Then the child does nothing after the `join` but end, and a
later `start` sees the writes of its own child only.
-/

namespace Lunchbox.Thread

open StateMachine Function

variable {s s' : State} {a : Action} {out : Output} {tr : List (Action × Output)} {k : Nat}

/-! ## Joined cycles -/

/-- The only step with this output is the last one of the owner's `join`. -/
theorem joined_step (h : thread.step s a = some (.join k true, s')) :
    k = s.cycle ∧ s.owner = .join .setStopped ∧ s'.child = s.child ∧ ∃ error, a = .owner error := by
  cases a with
  | call c =>
      obtain ⟨-, he⟩ := Option.ite_none_right_eq_some.mp h
      cases he
  | child m a =>
      obtain ⟨impl, c, hm, -⟩ := child_step h
      generalize s.child m = c0 at hm
      cases hm
  | owner error =>
      obtain ⟨owner, ho, hm⟩ := ownerMoves_of_step h
      cases hm with
      | ret hj =>
          cases hj
          exact ⟨rfl, ho, rfl, error, rfl⟩

/-- No child is created in a cycle that was joined: the next one begins before. -/
def Closed (tr : List (Action × Output)) (s : State) : Prop :=
  ∀ a k b, (a, Output.join k b) ∈ tr → k ≤ s.cycle ∧ (k = s.cycle → ∀ n, s.owner ≠ .create n)

theorem closed_mono (h : Closed tr s) (hcycle : s'.cycle = s.cycle) (hout : ∀ k b, out ≠ .join k b)
    (howner : ∀ n, s'.owner = .create n → ∃ m, s.owner = .create m) :
    Closed (tr ++ [(a, out)]) s' := by
  intro a' k b hmem
  rcases List.mem_append.mp hmem with hmem | hmem
  · obtain ⟨hle, hne⟩ := h a' k b hmem
    refine ⟨by omega, fun hk n hn => ?_⟩
    obtain ⟨m, hm⟩ := howner n hn
    exact hne (by omega) m hm
  · cases List.mem_singleton.mp hmem
    exact absurd rfl (hout k b)

theorem closed_owner {error : Error} (h : Closed tr s) (hs : s.ownerStep error = some (out, s')) :
    Closed (tr ++ [(a, out)]) s' := by
  obtain ⟨owner, ho, hm⟩ := ownerMoves_of_step hs
  cases hm with
  | setStarting =>
      intro a' k b hmem
      rcases List.mem_append.mp hmem with hmem | hmem
      · have hle := (h a' k b hmem).1
        refine ⟨Nat.le_succ_of_le hle, fun hk => ?_⟩
        have hk : k = s.cycle + 1 := hk
        omega
      · cases List.mem_singleton.mp hmem
  | ret =>
      intro a' k b hmem
      rcases List.mem_append.mp hmem with hmem | hmem
      · exact ⟨(h a' k b hmem).1, fun _ n hn => by cases hn⟩
      · cases List.mem_singleton.mp hmem
        exact ⟨le_refl _, fun _ n hn => by cases hn⟩
  | again => exact closed_mono h rfl (fun k b he => by cases he) fun _ _ => ⟨_, ho⟩
  | _ => exact closed_mono h rfl (fun k b he => by cases he) fun n hn => by cases hn

theorem closed_of_trace (h : thread.Trace tr s) : Closed tr s := by
  induction h with
  | nil =>
      intro a k b hmem
      cases hmem
  | @snoc tr s a out s' ht hs ih =>
      cases a with
      | call c =>
          obtain ⟨ho, he⟩ := Option.ite_none_right_eq_some.mp hs
          cases he
          cases c <;> exact closed_mono ih rfl (fun k b he => by cases he) fun n hn => by cases hn
      | owner error => exact closed_owner ih hs
      | child m a =>
          obtain ⟨impl, c, hm, rfl⟩ := child_step hs
          refine closed_mono ih rfl ?_ fun n hn => ⟨n, hn⟩
          rintro k b rfl
          generalize s.child m = c0 at hm
          cases hm

/-- A quiet child stays quiet. -/
theorem quiet_step (hs : thread.step s a = some (out, s')) (hk : (s.child k).Quiet)
    (hcreate : k = s.cycle → ∀ n, s.owner ≠ .create n) : (s'.child k).Quiet := by
  cases a with
  | call c =>
      obtain ⟨-, he⟩ := Option.ite_none_right_eq_some.mp hs
      cases he
      cases c <;> exact hk
  | child m a =>
      obtain ⟨impl, c, hm, rfl⟩ := child_step hs
      by_cases hkm : k = m
      · subst hkm
        obtain ⟨-, -, rfl⟩ := hm.of_quiet hk
        simp only [update_self]
        trivial
      · simp only [update_of_ne hkm]
        exact hk
  | owner error =>
      obtain ⟨owner, ho, hm⟩ := ownerMoves_of_step hs
      cases hm with
      | created =>
          have hne : k ≠ s.cycle := fun he => hcreate he _ ho
          simp only [update_of_ne hne]
          exact hk
      | _ => exact hk

/-! ## The condition -/

/-- The children of the cycles in which `join` has returned true are quiet. -/
def JoinedQuiet (tr : List (Action × Output)) (s : State) : Prop :=
  ∀ a k, (a, Output.join k true) ∈ tr → (s.child k).Quiet

theorem joinedQuiet_step (ht : thread.Trace tr s) (hinv : Inv s) (h : JoinedQuiet tr s)
    (hs : thread.step s a = some (out, s')) :
    JoinedQuiet (tr ++ [(a, out)]) s' ↔ Awaits s a := by
  constructor
  · intro h'
    cases a with
    | call | child => trivial
    | owner error =>
        intro ho _
        have he : s.ownerStep error
            = some (.join s.cycle true, { s.setState .stopped with owner := .idle }) := by
          simp only [State.ownerStep, ho]
          rfl
        have hstep : s.ownerStep error = some (out, s') := hs
        rw [he] at hstep
        cases hstep
        exact h' (.owner error) s.cycle (List.mem_append_right _ (List.mem_singleton_self _))
  · intro hg a' k hmem
    rcases List.mem_append.mp hmem with hmem | hmem
    · exact quiet_step hs (h a' k hmem) (closed_of_trace ht a' k true hmem).2
    · cases List.mem_singleton.mp hmem
      obtain ⟨rfl, ho, hchild, error, rfl⟩ := joined_step hs
      have hallows := hinv.current.owner
      rw [ho] at hallows
      rw [hchild]
      exact hallows.2.elim (fun hq => hq) fun hc => hg ho hc

theorem inv_of_guarded (h : thread.Trace tr s) (hg : thread.Guarded Awaits tr) : Inv s :=
  h.guardedInv (fun _ => Inv) inv_init (fun _ _ _ _ _ hinv hg hs => hinv.step hg hs) hg

/-- The children of the joined cycles are quiet in all states, exactly if in a canceled cycle `join`
returns true only once the child is quiet. -/
theorem joinedQuiet_iff (h : thread.Trace tr s) :
    thread.Always JoinedQuiet tr ↔ thread.Guarded Awaits tr := by
  refine h.always_iff_guarded_of_inv Inv inv_init (fun a k hmem => by cases hmem) ?_ ?_
  · exact fun s a out s' hinv hg hs => hinv.step hg hs
  · exact fun tr s a out s' ht hinv hq hs => joinedQuiet_step ht hinv hq hs

/-! ## What the owner has to do -/

/-- The child has honoured the request for cancellation, or has left `run` and `exit` has made its
write. -/
def Child.Gone : Child → Prop
  | .terminate | .ended => True
  | _ => False

instance : DecidablePred Child.Gone
  | .terminate | .ended => isTrue trivial
  | .unborn | .setId | .init | .setState _ | .run | .join _ | .exit => isFalse False.elim

theorem Child.Gone.quiet {c : Child} (h : c.Gone) : c.Quiet := by
  cases c with
  | terminate | ended => trivial
  | _ => exact h.elim

/-- In a cycle in which it has called `cancel`, the owner calls `join` only after the child has
gone. -/
def JoinsGone (s : State) : Action → Prop
  | .call .join => s.canceled s.cycle = true → (s.child s.cycle).Gone
  | _ => True

instance (s : State) : DecidablePred (JoinsGone s)
  | .call .join => inferInstanceAs (Decidable (_ → _))
  | .call .start | .call .cancel | .owner _ | .child _ _ => isTrue trivial

/-- An owner that is in `join` in a canceled cycle has found the child gone. -/
def Prompt (s : State) : Prop :=
  ∀ j, s.owner = .join j → s.canceled s.cycle = true → (s.child s.cycle).Quiet

theorem Prompt.awaits (h : Prompt s) : Awaits s a := by
  cases a with
  | owner error => exact h .setStopped
  | call | child => trivial

theorem prompt_step (h : Prompt s) (hg : JoinsGone s a) (hs : thread.step s a = some (out, s')) :
    Prompt s' := by
  cases a with
  | call c =>
      obtain ⟨-, he⟩ := Option.ite_none_right_eq_some.mp hs
      cases he
      cases c with
      | join => exact fun _ _ hc => (hg hc).quiet
      | start | cancel => exact fun j hj => by cases hj
  | child m b =>
      intro j hj hc
      have ho : s.owner = .join j ∧ s.canceled s.cycle = true ∧ s'.cycle = s.cycle := by
        obtain ⟨impl, c, -, rfl⟩ := child_step hs
        exact ⟨hj, hc, rfl⟩
      rw [ho.2.2]
      refine quiet_step hs (h j ho.1 ho.2.1) fun _ n hn => ?_
      -- an owner in `join` is not creating a child
      rw [ho.1] at hn
      cases hn
  | owner error =>
      obtain ⟨owner, ho, hm⟩ := ownerMoves_of_step hs
      cases hm with
      | goto hj =>
          -- the steps of `join` leave the requests and the children alone
          exact fun _ _ hc => h _ ho hc
      | _ => exact fun j hj => by cases hj

theorem awaits_of_joinsGone (h : thread.Trace tr s) (hg : thread.Guarded JoinsGone tr) :
    thread.Guarded Awaits tr := by
  rintro pre a b post s0 rfl h0
  obtain ⟨s1, -, h1, hg1, -⟩ := h.guarded_split hg
  rw [h0.unique h1]
  have hprompt : Prompt s1 := h1.guardedInv (fun _ => Prompt) (fun j hj => by cases hj)
    (fun _ _ _ _ _ hp hg hs => prompt_step hp hg hs) hg1
  exact hprompt.awaits

/-- **What `join` waits for.** In every history of an owner that calls `start`, `join` and `cancel`,
interleaved with the steps of the children in any way, in which the owner calls `join` in a canceled
cycle only after the child has gone: the child of a cycle in which `join` has returned true is quiet
in all states and does nothing after the `join` but end, and only the child of the current cycle
writes to the monitor and to the id. -/
theorem join_awaits (h : thread.Trace tr s) (hg : thread.Guarded JoinsGone tr) :
    thread.Always JoinedQuiet tr ∧
    (∀ pre a k post, tr = pre ++ (a, .join k true) :: post →
      ∀ c out, (.child k c, out) ∈ post → out = .ended) ∧
    ∀ k c out s', k ≠ s.cycle → thread.step s (.child k c) = some (out, s') →
      s'.impl = s.impl := by
  have hg := awaits_of_joinsGone h hg
  refine ⟨(joinedQuiet_iff h).mpr hg, ?_, ?_⟩
  · rintro pre a k post rfl c out hmem
    obtain ⟨p, q, rfl⟩ := List.append_of_mem hmem
    have hsplit : pre ++ (a, Output.join k true) :: (p ++ (Action.child k c, out) :: q)
        = (pre ++ (a, Output.join k true) :: p) ++ (Action.child k c, out) :: q := by simp
    rw [hsplit] at h hg
    obtain ⟨s0, s1, h0, hg0, -, hs⟩ := h.guarded_split hg
    have hquiet := (joinedQuiet_iff h0).mpr hg0 _ [] s0 (List.append_nil _).symm h0 a k (by simp)
    obtain ⟨impl, c', hm, -⟩ := child_step hs
    exact (hm.of_quiet hquiet).1
  · intro k c out s' hk hs
    obtain ⟨impl, c', hm, rfl⟩ := child_step hs
    exact ((inv_of_guarded h hg).moves_other hk hm).2.2.1

/-- The owner starts the thread, its `init` returns true, and the owner calls `cancel`. -/
def canceledStart : List Action :=
  [.call .start, .owner .success, .owner .success, .owner .success, .owner .success,
    .child 1 .step, .child 1 (.initReturn true), .child 1 .step,
    .owner .success, .owner .success, .owner .success,
    .call .cancel, .owner .success, .owner .success]

/-- The child honours the request before the owner calls `join`. -/
def honoredHistory : List Action :=
  canceledStart ++ [.child 1 .cancel, .call .join, .owner .success, .owner .success,
    .owner .success, .owner .success]

theorem join_awaits_honored :
    ∃ tr s, thread.Trace tr s ∧ tr.map Prod.fst = honoredHistory ∧ thread.Guarded JoinsGone tr ∧
      tr.getLast? = some (.owner .success, .join 1 true) ∧ thread.Always JoinedQuiet tr := by
  have htrace := Machine.Trace.of_run (M := thread) honoredHistory rfl
  have hguard := Machine.guarded_of_run (M := thread) (G := JoinsGone) honoredHistory rfl
    (by decide)
  exact ⟨_, _, htrace, rfl, hguard, rfl, (join_awaits htrace hguard).1⟩

/-- The owner calls `join` while the child is still running. -/
def earlyJoin : List Action :=
  canceledStart ++ [.call .join, .owner .success, .owner .success, .owner .success, .owner .success]

/-- The owner starts the thread again, and the old child goes on in the meantime. -/
def startAgain : List Action :=
  [.child 1 .work, .call .start, .owner .success, .owner .success, .owner .success, .owner .success,
    .child 1 (.leave false), .child 1 .step, .owner .success, .owner .success, .owner .success]

/-- After `join` has returned true the child takes a step of `run`, and its write of
`STATE_STOPPING` in the next cycle makes that `start` return true before its own child has got to
`init`. -/
theorem canceled_child_runs_on :
    ∃ tr tr' s, thread.Trace (tr ++ tr') s ∧ tr.map Prod.fst = earlyJoin ∧
      tr'.map Prod.fst = startAgain ∧ tr.getLast? = some (.owner .success, .join 1 true) ∧
      tr'.head? = some (.child 1 .work, .silent) ∧
      tr'.getLast? = some (.owner .success, .start 2 true) ∧ s.child 2 = .setId := by
  have hjoin := Machine.Trace.of_run (M := thread) earlyJoin rfl
  have hstart := hjoin.append_run (show thread.run startAgain _ = some _ from rfl)
  exact ⟨_, _, _, hstart, rfl, rfl, rfl, rfl, rfl, rfl⟩

end Lunchbox.Thread
