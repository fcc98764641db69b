import Mathlib.Algebra.Order.BigOperators.Group.Finset
import Mathlib.Algebra.Order.BigOperators.Group.List
import Mathlib.Data.Fintype.Card
import Lunchbox.Lib.TwoPhase

set_option autoImplicit false

/-! # Deadlock under two-phase locking

Nothing is assumed about the order in which operations lock, so that threads can wait for each other
for ever. An operation can be completed unless its thread is in a set of threads each of which needs
a lock that another one of them holds (`completes_iff`). There is no such set if all operations lock
in the order of a rank (`not_deadlocked_of_rank`).
-/

namespace TwoPhase

open StateMachine Linearizability Function

variable {ι ν α ο ρ κ : Type} [DecidableEq ι] [DecidableEq ν]

/-- The thread still has to take a lock that the other one holds. -/
def State.Needs (s : State ι ν α ο ρ κ) (t u : ι) : Prop :=
  ∃ op held todo, s.place t = .acquiring op held todo ∧ ∃ v ∈ todo, v ∈ (s.place u).held

/-- A set of threads, each of which needs a lock that another one of them holds. -/
def State.Deadlocked (s : State ι ν α ο ρ κ) (D : Set ι) : Prop := ∀ t ∈ D, ∃ u ∈ D, s.Needs t u

section
variable {C : Code ν α ο ρ κ} {O : Object (ν → α) ο ρ} {V : (ν → α) → Prop}
  {s s' : State ι ν α ο ρ κ} {c : Config ι (ν → α) ο ρ} {t u w : ι} {v : ν} {D : Set ι}
  {op : ο} {held todo : List ν} {k : κ} {r : ρ}

theorem advance_other {o : Option ρ} (hs : s.advance C t = some (o, s')) (hu : u ≠ t) :
    s'.place u = s.place u := by
  revert hs
  unfold State.advance
  split
  next => simp
  next =>
      rintro ⟨⟩
      exact place_goto_of_ne hu
  next =>
      split
      next =>
        rintro ⟨⟩
        rfl
      next =>
        rintro ⟨⟩
        exact place_goto_of_ne hu
  next =>
      split
      next => simp
      next =>
        rintro ⟨⟩
        exact place_goto_of_ne hu
      next =>
        rintro ⟨⟩
        exact place_goto_of_ne hu
  next =>
      rintro ⟨⟩
      exact place_goto_of_ne hu
  next =>
      rintro ⟨⟩
      exact place_goto_of_ne hu

/-- What a step does to a thread that still has to take locks: nothing, or it takes one that is
free. -/
theorem place_step {a : Action ι ο} {o : Option ρ} {init : ν → α}
    (hs : (locking C init).step s a = some (o, s')) (ht : s.place t = .acquiring op held todo)
    (htodo : todo ≠ []) : s'.place t = s.place t ∨ ∃ v rest, todo = v :: rest ∧
      s.locked v = false ∧ s'.place t = .acquiring op (v :: held) rest := by
  cases a with
  | call u op' =>
      simp only [locking] at hs
      split at hs
      next hpl =>
        cases hs
        refine Or.inl (place_goto_of_ne ?_)
        rintro rfl
        rw [ht] at hpl
        cases hpl
      next => cases hs
  | step u =>
      rcases eq_or_ne t u with rfl | hne
      · obtain ⟨v, rest, rfl⟩ := List.exists_cons_of_ne_nil htodo
        simp only [locking, State.advance, ht] at hs
        split at hs
        next =>
          cases hs
          exact Or.inl rfl
        next hv =>
          cases hs
          exact Or.inr ⟨v, rest, rfl, by simpa using hv, place_goto_self⟩
      · exact Or.inl (advance_other hs hne)

/-- A thread that needs a lock itself does not give up what another one needs. -/
theorem State.Needs.step {a : Action ι ο} {o : Option ρ} {init : ν → α} (hinv : Inv C s)
    (hs : (locking C init).step s a = some (o, s')) (htu : s.Needs t u) (huw : s.Needs u w) :
    s'.Needs t u := by
  obtain ⟨op, held, todo, ht, v, hv, hvu⟩ := htu
  obtain ⟨op', held', todo', hu, v', hv', -⟩ := huw
  have hheld : v ∈ (s'.place u).held := by
    rcases place_step hs hu (List.ne_nil_of_mem hv') with hsame | ⟨x, rest, -, -, hnew⟩
    · rwa [hsame]
    · rw [hu] at hvu
      rw [hnew]
      exact List.mem_cons_of_mem x hvu
  rcases place_step hs ht (List.ne_nil_of_mem hv) with hsame | ⟨x, rest, rfl, hx, hnew⟩
  · exact ⟨op, held, todo, hsame.trans ht, v, hv, hheld⟩
  · refine ⟨op, x :: held, rest, hnew, v, ?_, hheld⟩
    -- the lock that was free is not the one that the other thread holds
    refine (List.mem_cons.mp hv).resolve_left ?_
    rintro rfl
    rw [(hinv.locked v).mpr ⟨u, hvu⟩] at hx
    cases hx

/-- **A deadlock is for ever.** -/
theorem State.Deadlocked.step {a : Action ι ο} {o : Option ρ} {init : ν → α} (hinv : Inv C s)
    (hs : (locking C init).step s a = some (o, s')) (hD : s.Deadlocked D) : s'.Deadlocked D := by
  intro t ht
  obtain ⟨u, hu, htu⟩ := hD t ht
  obtain ⟨w, -, huw⟩ := hD u hu
  exact ⟨u, hu, htu.step hinv hs huw⟩

theorem trace_advance {tr : List (Action ι ο × Option ρ)} {o : Option ρ} {init : ν → α}
    (htr : (locking C init).Trace tr s) (hs : s.advance C t = some (o, s')) :
    (locking C init).Trace (tr ++ [(.step t, o)]) s' := by
  have hstep : (locking C init).step s (.step t) = some (o, s') := hs
  exact htr.snoc hstep

/-- The thread can complete its operation without the others. -/
def Finishes (C : Code ν α ο ρ κ) (init : ν → α) (tr : List (Action ι ο × Option ρ))
    (s : State ι ν α ο ρ κ) (t : ι) : Prop :=
  ∃ tr' s', (locking C init).Trace (tr ++ tr') s' ∧ s'.place t = .idle ∧
    ∀ u, u ≠ t → s'.place u = s.place u

theorem Finishes.next {tr : List (Action ι ο × Option ρ)} {o : Option ρ} {init : ν → α}
    (hs : s.advance C t = some (o, s')) (h : Finishes C init (tr ++ [(.step t, o)]) s' t) :
    Finishes C init tr s t := by
  obtain ⟨tr', s'', htr, hidle, hother⟩ := h
  refine ⟨(.step t, o) :: tr', s'', by simpa using htr, hidle, fun u hu => ?_⟩
  rw [hother u hu, advance_other hs hu]

theorem finishes_releasing {tr : List (Action ι ο × Option ρ)} {init : ν → α}
    (htr : (locking C init).Trace tr s) (hpl : s.place t = .releasing held r) :
    Finishes C init tr s t := by
  induction held generalizing s tr with
  | nil =>
      have hs : s.advance C t = some (some r, s.goto t .idle) := by simp only [State.advance, hpl]
      exact ⟨[_], _, trace_advance htr hs, place_goto_self, fun u hu => place_goto_of_ne hu⟩
  | cons v held ih =>
      have hs : s.advance C t = some (none, (s.setLock v false).goto t (.releasing held r)) := by
        simp only [State.advance, hpl]
      exact (ih (trace_advance htr hs) place_goto_self).next hs

theorem Code.Ends.merge {b b' : ν → α} (hL : C.Local) (hk : C.At op k) (h : C.Ends b k b' r)
    (e : ν → α) : C.Ends (merge (C.locks op) b e) k (merge (C.locks op) b' e) r := by
  induction h with
  | done hs => exact .done (hL.step_merge hk hs e)
  | step hs _ ih => exact .step (hL.step_merge hk hs e) (ih (hk.step hs))

theorem finishes_body {tr : List (Action ι ο × Option ρ)} {init b : ν → α}
    (htr : (locking C init).Trace tr s) (hpl : s.place t = .inside op held k)
    (hends : C.Ends s.objs k b r) : Finishes C init tr s t := by
  generalize hobjs : s.objs = a at hends
  induction hends generalizing s tr with
  | done hst =>
      subst hobjs
      have hs := show s.advance C t = some (none, _) by
        simp only [State.advance, hpl, hst]
        rfl
      exact (finishes_releasing (trace_advance htr hs) place_goto_self).next hs
  | step hst _ ih =>
      subst hobjs
      have hs := show s.advance C t = some (none, _) by
        simp only [State.advance, hpl, hst]
        rfl
      exact (ih (trace_advance htr hs) place_goto_self rfl).next hs

theorem finishes_inside {tr : List (Action ι ο × Option ρ)} (hL : C.Local)
    (hI : C.Implements O V) (htr : (locking C O.init).Trace tr s)
    (hpl : s.place t = .inside op held k) : Finishes C O.init tr s t := by
  obtain ⟨c, -, h⟩ := sim_of_trace hL hI htr
  obtain ⟨r, b, -, -, hends⟩ := hI.ends c.obj op h.valid
  have hr := h.inside t op held k hpl
  have he := (hr.ends hends).merge hL hr.at s.objs
  rw [merge_merge, merge_self] at he
  exact finishes_body htr hpl he

theorem finishes_acquiring {tr : List (Action ι ο × Option ρ)} (hL : C.Local)
    (hI : C.Implements O V) (htr : (locking C O.init).Trace tr s)
    (hpl : s.place t = .acquiring op held todo) (hnodup : todo.Nodup)
    (hfree : ∀ v ∈ todo, s.locked v = false) : Finishes C O.init tr s t := by
  induction todo generalizing s tr held with
  | nil =>
      have hs : s.advance C t = some (none, s.goto t (.inside op held (C.start op))) := by
        simp only [State.advance, hpl]
      exact (finishes_inside hL hI (trace_advance htr hs) place_goto_self).next hs
  | cons v todo ih =>
      obtain ⟨hv, hnodup⟩ := List.nodup_cons.mp hnodup
      have hs : s.advance C t = some (none,
          (s.setLock v true).goto t (.acquiring op (v :: held) todo)) := by
        simp [State.advance, hpl, hfree v List.mem_cons_self]
      refine (ih (trace_advance htr hs) place_goto_self hnodup fun x hx => ?_).next hs
      have hne : x ≠ v := by
        rintro rfl
        exact hv hx
      simpa [State.goto, State.setLock, hne] using hfree x (List.mem_cons_of_mem v hx)

/-- A thread that needs no lock of another one can complete its operation. -/
theorem finishes_of_no_need {tr : List (Action ι ο × Option ρ)} (hL : C.Local)
    (hI : C.Implements O V) (htr : (locking C O.init).Trace tr s) (hneeds : ∀ u, ¬ s.Needs t u) :
    Finishes C O.init tr s t := by
  have hinv := inv_of_trace hL htr
  cases hpl : s.place t with
  | idle => exact ⟨[], s, by simpa using htr, hpl, fun _ _ => rfl⟩
  | acquiring op held todo =>
      have hf := hinv.fits t
      rw [hpl] at hf
      have hnodup : (held.reverse ++ todo).Nodup := hf ▸ hL.nodup op
      refine finishes_acquiring hL hI htr hpl hnodup.of_append_right fun v hv => ?_
      by_contra hlocked
      obtain ⟨u, hu⟩ := (hinv.locked v).mp (by simpa using hlocked)
      exact hneeds u ⟨op, held, todo, hpl, v, hv, hu⟩
  | inside op held k => exact finishes_inside hL hI htr hpl
  | releasing held r => exact finishes_releasing htr hpl

/-- Whether a thread can complete its operation, with the help of the others. -/
def Completes (C : Code ν α ο ρ κ) (init : ν → α) (tr : List (Action ι ο × Option ρ)) (t : ι) :
    Prop :=
  ∃ tr' s', (locking C init).Trace (tr ++ tr') s' ∧ s'.place t = .idle

omit [DecidableEq ι] [DecidableEq ν] in
/-- Threads that are in the same places are deadlocked alike. -/
theorem State.Deadlocked.of_place (hD : s'.Deadlocked D) (hu : s'.place u = .idle)
    (hother : ∀ w, w ≠ u → s'.place w = s.place w) : s.Deadlocked D := by
  have hne : ∀ w ∈ D, w ≠ u := by
    rintro w hw rfl
    obtain ⟨-, -, _, _, _, hpl, -⟩ := hD w hw
    rw [hu] at hpl
    cases hpl
  intro t ht
  obtain ⟨w, hw, op, held, todo, hpl, v, hv, hvw⟩ := hD t ht
  rw [hother t (hne t ht)] at hpl
  rw [hother w (hne w hw)] at hvw
  exact ⟨w, hw, op, held, todo, hpl, v, hv, hvw⟩

omit [DecidableEq ι] [DecidableEq ν] in
theorem State.Needs.not_idle (h : s.Needs t u) : s.place u ≠ .idle := by
  obtain ⟨_, _, _, -, v, -, hv⟩ := h
  intro hidle
  rw [hidle] at hv
  cases hv

omit [DecidableEq ι] [DecidableEq ν] in
/-- If a thread is not deadlocked, one of those it waits for needs no lock. -/
theorem exists_no_need (hnot : ¬ ∃ D, t ∈ D ∧ s.Deadlocked D) (ht : s.place t ≠ .idle) :
    ∃ u, s.place u ≠ .idle ∧ ∀ w, ¬ s.Needs u w := by
  by_contra hall
  push Not at hall
  refine hnot ⟨{u | Relation.ReflTransGen s.Needs t u}, .refl, fun u hu => ?_⟩
  have hidle : s.place u ≠ .idle := by
    rcases Relation.ReflTransGen.cases_tail hu with rfl | ⟨x, -, hx⟩
    · exact ht
    · exact hx.not_idle
  obtain ⟨w, hw⟩ := hall u hidle
  exact ⟨w, hu.tail hw, hw⟩

variable [Fintype ι]

open Classical in
theorem completes_of_not_deadlocked {tr : List (Action ι ο × Option ρ)} (hL : C.Local)
    (hI : C.Implements O V) (htr : (locking C O.init).Trace tr s)
    (hnot : ¬ ∃ D, t ∈ D ∧ s.Deadlocked D) : Completes C O.init tr t := by
  -- the operations that have to be completed first, by the number of threads that are busy
  induction hn : (Finset.univ.filter fun u => s.place u ≠ .idle).card using Nat.strong_induction_on
    generalizing s tr with
  | _ n ih =>
      by_cases hidle : s.place t = .idle
      · exact ⟨[], s, by simpa using htr, hidle⟩
      · obtain ⟨u, hu, hneeds⟩ := exists_no_need hnot hidle
        obtain ⟨tr', s', htr', hidle', hother⟩ := finishes_of_no_need hL hI htr hneeds
        have hlt : (Finset.univ.filter fun w => s'.place w ≠ .idle).card < n := by
          rw [← hn]
          refine Finset.card_lt_card (Finset.ssubset_iff_of_subset ?_ |>.mpr ⟨u, ?_, ?_⟩)
          · intro w hw
            have hne : w ≠ u := by
              rintro rfl
              simp [hidle'] at hw
            simpa [hother w hne] using hw
          · simpa using hu
          · simp [hidle']
        have hnot' : ¬ ∃ D, t ∈ D ∧ s'.Deadlocked D := by
          rintro ⟨D, ht, hD⟩
          exact hnot ⟨D, ht, hD.of_place hidle' hother⟩
        obtain ⟨tr'', s'', htr'', hdone⟩ := ih _ hlt htr' hnot' rfl
        exact ⟨tr' ++ tr'', s'', by rwa [← List.append_assoc], hdone⟩

/-- **An operation can be completed unless its thread is deadlocked.** -/
theorem completes_iff {tr : List (Action ι ο × Option ρ)} (hL : C.Local) (hI : C.Implements O V)
    (htr : (locking C O.init).Trace tr s) :
    Completes C O.init tr t ↔ ¬ ∃ D, t ∈ D ∧ s.Deadlocked D := by
  refine ⟨?_, completes_of_not_deadlocked hL hI htr⟩
  rintro ⟨tr', s', htr', hidle⟩ ⟨D, ht, hD⟩
  have hstays : Inv C s' ∧ s'.Deadlocked D := by
    refine Machine.Trace.after (fun _ s => Inv C s ∧ s.Deadlocked D) htr htr'
      ⟨inv_of_trace hL htr, hD⟩ ?_
    exact fun _ s a o s' ⟨hinv, hD⟩ hs => ⟨hinv.step hL hs, hD.step hinv hs⟩
  obtain ⟨u, -, _, _, _, hpl, -⟩ := hstays.2 t ht
  rw [hidle] at hpl
  cases hpl

omit [Fintype ι] in
theorem acquiring_of_advance {o : Option ρ} (hs : s.advance C t = some (o, s'))
    (hpl : s'.place t = .acquiring op held todo) :
    ∃ held todo, s.place t = .acquiring op held todo := by
  unfold State.advance at hs
  split at hs
  next => cases hs
  next => cases hs; simp at hpl
  next op' held' v todo' hold =>
      split_ifs at hs <;> cases hs
      · exact ⟨_, _, hpl⟩
      · rw [place_goto_self] at hpl
        cases hpl
        exact ⟨_, _, hold⟩
  next =>
      split at hs
      next => cases hs
      next => cases hs; simp at hpl
      next => cases hs; simp at hpl
  next => cases hs; simp at hpl
  next => cases hs; simp at hpl

omit [Fintype ι] in
/-- A thread is in an operation that it has called. -/
theorem called_of_trace {tr : List (Action ι ο × Option ρ)} {init : ν → α}
    (htr : (locking C init).Trace tr s) (hpl : s.place t = .acquiring op held todo) :
    ∃ o, (.call t op, o) ∈ tr := by
  induction htr generalizing held todo with
  | nil => cases hpl
  | @snoc tr s₀ a o s₁ htr hs ih =>
      have hold : (∃ held todo, s₀.place t = .acquiring op held todo) ∨ a = .call t op := by
        cases a with
        | call u op' =>
            simp only [locking] at hs
            split at hs
            next hidle =>
              cases hs
              rcases eq_or_ne t u with rfl | hne
              · rw [place_goto_self] at hpl
                cases hpl
                exact Or.inr rfl
              · rw [place_goto_of_ne hne] at hpl
                exact Or.inl ⟨held, todo, hpl⟩
            next => cases hs
        | step u =>
            rcases eq_or_ne t u with rfl | hne
            · exact Or.inl (acquiring_of_advance hs hpl)
            · rw [advance_other hs hne] at hpl
              exact Or.inl ⟨held, todo, hpl⟩
      rcases hold with ⟨held, todo, hpl⟩ | rfl
      · obtain ⟨o', ho'⟩ := ih hpl
        exact ⟨o', List.mem_append_left _ ho'⟩
      · exact ⟨o, List.mem_append_right _ List.mem_cons_self⟩

omit [DecidableEq ι] [DecidableEq ν] [Fintype ι] in
/-- In the order of a rank, a thread needs a lock of a higher rank than those it holds. -/
theorem rank_lt_of_needs {rank : ν → Nat} {x : ν} (hinv : Inv C s)
    (hrank : (C.locks op).Pairwise fun v w => rank v < rank w)
    (hpl : s.place t = .acquiring op held todo) (hv : v ∈ held) (hx : x ∈ todo) :
    rank v < rank x := by
  have hf := hinv.fits t
  rw [hpl] at hf
  rw [← show held.reverse ++ todo = C.locks op from hf] at hrank
  exact (List.pairwise_append.mp hrank).2.2 v (List.mem_reverse.mpr hv) x hx

omit [DecidableEq ι] [DecidableEq ν] in
/-- Threads that lock in the order of a rank are not deadlocked. -/
theorem not_deadlocked_of_rank (rank : ν → Nat) (hinv : Inv C s)
    (hrank : ∀ t op held todo, s.place t = .acquiring op held todo →
      (C.locks op).Pairwise fun v w => rank v < rank w) :
    ¬ ∃ D, t ∈ D ∧ s.Deadlocked D := by
  rintro ⟨D, ht, hD⟩
  -- the threads of the set need locks of any rank, but have finitely many to take
  have hany : ∀ n, ∃ u ∈ D, ∃ op held todo, s.place u = .acquiring op held todo ∧
      ∃ v ∈ todo, n ≤ rank v ∧ ∃ w ∈ D, v ∈ (s.place w).held := by
    intro n
    induction n with
    | zero =>
        obtain ⟨w, hw, op, held, todo, hpl, v, hv, hvw⟩ := hD t ht
        exact ⟨t, ht, op, held, todo, hpl, v, hv, Nat.zero_le _, w, hw, hvw⟩
    | succ n ih =>
        obtain ⟨u, -, _, _, _, -, v, -, hn, w, hw, hvw⟩ := ih
        obtain ⟨x, hx, op, held, todo, hpl, v', hv', hvx⟩ := hD w hw
        rw [hpl] at hvw
        have hlt := rank_lt_of_needs hinv (hrank w op held todo hpl) hpl hvw hv'
        exact ⟨w, hw, op, held, todo, hpl, v', hv', by omega, x, hx, hvx⟩
  let bound : Place ν ο ρ κ → Nat
    | .acquiring _ _ todo => (todo.map rank).sum
    | _ => 0
  obtain ⟨u, -, op, held, todo, hpl, v, hv, hn, -⟩ := hany (∑ u, bound (s.place u) + 1)
  have hle : rank v ≤ bound (s.place u) := by
    rw [hpl]
    exact List.le_sum_of_mem (List.mem_map_of_mem hv)
  have hsum := Finset.single_le_sum (f := fun u => bound (s.place u)) (fun _ _ => Nat.zero_le _)
    (Finset.mem_univ u)
  have hsum : bound (s.place u) ≤ ∑ u, bound (s.place u) := hsum
  omega
end

/-- In a finite set where every element has a successor, there is a cycle. -/
theorem exists_cycle {α : Type} [Finite α] {r : α → α → Prop} {S : Set α} {a : α} (ha : a ∈ S)
    (hS : ∀ x ∈ S, ∃ y ∈ S, r x y) : ∃ x ∈ S, Relation.TransGen r x x := by
  by_contra hno
  push Not at hno
  let before : S → S → Prop := fun x y => Relation.TransGen r y x
  have htrans : IsTrans S before := ⟨fun _ _ _ hxy hyz => hyz.trans hxy⟩
  have hirrefl : Std.Irrefl before := ⟨fun x => hno x x.2⟩
  have hwf := Finite.wellFounded_of_trans_of_irrefl before
  obtain ⟨x, -, hmin⟩ := hwf.has_min Set.univ ⟨⟨a, ha⟩, trivial⟩
  obtain ⟨y, hy, hxy⟩ := hS x x.2
  exact hmin ⟨y, hy⟩ trivial (.single hxy)

end TwoPhase
