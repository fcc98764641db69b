import Lunchbox.MTQueue.System

set_option autoImplicit false

/-! # A queue conserves and orders its elements

What a critical section removes from a queue, followed by what it leaves there, is what was there
followed by what it adds; if it adds at the front, only up to the order. Over a history without
`clear` and assignment this adds up: everything returned and everything still there is everything
pushed.
-/

namespace Lunchbox.MTQueue

variable {T γ : Type}

/-! ## One body -/

/-- The call adds at the front. -/
def Call.AtFront : Call T γ → Prop
  | .push (.pushFront _) => True
  | .push (.pushFrontAll _) => True
  | _ => False

theorem Takes.conserves {sh : Shared T γ} {o : Shared.Outcome T γ} (h : Takes sh o) :
    o.reply.elements ++ o.next.q.queue = sh.q.queue := by
  obtain ⟨n, hr, hq⟩ := h
  rw [hr, hq, List.take_append_drop]

variable {sh : Shared T γ} {c : Call T γ}

theorem pushed_of_not_push (hp : ∀ p, c ≠ .push p) : c.pushed = [] := by
  cases c with
  | push p => exact absurd rfl (hp p)
  | pop | timedPop | timedPopRange | tryPop | tryPopRange | popBarrier | index | waitSize
  | setMaxSize | clear | getFront | getBack => rfl

variable [DecidableEq γ]

theorem body_perm (hc : c ≠ .clear) :
    ((sh.body c).reply.elements ++ (sh.body c).next.q.queue).Perm (sh.q.queue ++ c.pushed) := by
  by_cases hp : ∃ p, c = .push p
  · obtain ⟨p, rfl⟩ := hp
    exact sh.q.push_perm p
  · have hp : ∀ p, c ≠ .push p := fun p he => hp ⟨p, he⟩
    rw [pushed_of_not_push hp, List.append_nil, (body_takes _ hp hc).conserves]

theorem body_eq (hc : c ≠ .clear) (hf : ¬ c.AtFront) :
    (sh.body c).reply.elements ++ (sh.body c).next.q.queue = sh.q.queue ++ c.pushed := by
  by_cases hp : ∃ p, c = .push p
  · obtain ⟨p, rfl⟩ := hp
    cases p with
    | push | pushAll => rfl
    | pushFront | pushFrontAll => exact absurd trivial hf
  · have hp : ∀ p, c ≠ .push p := fun p he => hp ⟨p, he⟩
    rw [pushed_of_not_push hp, List.append_nil, (body_takes _ hp hc).conserves]

/-- `timedPopRange` returns nothing or as many elements as it was asked for. -/
theorem timedPopRange_length {minimum maximum : Nat} (h : minimum ≤ maximum) :
    let xs := (sh.body (.timedPopRange minimum maximum)).reply.elements
    xs = [] ∨ minimum ≤ xs.length ∧ xs.length ≤ maximum := by
  simp only [Shared.body]
  split
  · exact Or.inl rfl
  · refine Or.inr ?_
    simp only [Reply.elements, List.length_take]
    omega

namespace System

open StateMachine

variable {T ι κ γ : Type} [DecidableEq κ]

/-! ## Histories -/

/-- What a step pushed onto the queue `k`. -/
def Output.pushed (k : κ) : Output T κ γ → List T
  | .returned k' c _ => if k' = k then c.pushed else []
  | _ => []

/-- What a step returned from the queue `k` after removing it there. -/
def Output.popped (k : κ) : Output T κ γ → List T
  | .returned k' _ reply => if k' = k then reply.elements else []
  | _ => []

/-- The step is a `clear` of the queue `k` or an assignment to it. -/
def Output.Overwrites (k : κ) : Output T κ γ → Prop
  | .returned k' c _ => k' = k ∧ c = .clear
  | .assigned k' => k' = k
  | _ => False

/-- The step is a `pushFront` onto the queue `k`. -/
def Output.AtFront (k : κ) : Output T κ γ → Prop
  | .returned k' c _ => k' = k ∧ c.AtFront
  | _ => False

/-- Everything pushed onto the queue `k`, in the order of the critical sections. -/
def pushed (k : κ) (tr : History T ι κ γ) : List T := tr.flatMap fun e => e.2.pushed k

/-- Everything returned from the queue `k`, in the order of the critical sections. -/
def popped (k : κ) (tr : History T ι κ γ) : List T := tr.flatMap fun e => e.2.popped k

@[simp] theorem pushed_snoc (k : κ) (tr : History T ι κ γ) (e : Action T ι κ γ × Output T κ γ) :
    pushed k (tr ++ [e]) = pushed k tr ++ e.2.pushed k := by
  simp [pushed]

@[simp] theorem popped_snoc (k : κ) (tr : History T ι κ γ) (e : Action T ι κ γ × Output T κ γ) :
    popped k (tr ++ [e]) = popped k tr ++ e.2.popped k := by
  simp [popped]

/-- What is in the queue `k`; nothing, as long as it does not exist. -/
def content (queues : κ → Option (Shared T γ)) (k : κ) : List T :=
  match queues k with
  | some sh => sh.q.queue
  | none => []

theorem content_update (queues : κ → Option (Shared T γ)) (k k' : κ) (sh : Shared T γ) :
    content (Function.update queues k (some sh)) k' =
      if k' = k then sh.q.queue else content queues k' := by
  unfold content
  by_cases hk : k' = k
  · rw [hk, Function.update_self, if_pos rfl]
  · rw [Function.update_of_ne hk, if_neg hk]

variable [DecidableEq ι] [DecidableEq γ] {height : κ → γ → Nat} {s s' : State T ι κ γ}
  {a : Action T ι κ γ} {o : Output T κ γ} {sh : Shared T γ} {c : Call T γ} {t : ι} {k k' : κ}

omit [DecidableEq ι] [DecidableEq κ] in
theorem content_enters (he : Enters s t k c sh) : content s.queues k = sh.q.queue := by
  cases he with
  | call hq => rw [content, hq, enter_q]
  | wake hq => rw [content, hq]

/-- **One critical section.** What it removes and what is then in the queue is what was in the
queue and what it adds. -/
theorem content_step (hs : Step height s a o s') (ho : ¬ o.Overwrites k) :
    (o.popped k ++ content s'.queues k).Perm (content s.queues k ++ o.pushed k) ∧
      (¬ o.AtFront k → o.popped k ++ content s'.queues k = content s.queues k ++ o.pushed k) := by
  -- a step that does nothing on this queue
  have hsame : o.popped k = [] → o.pushed k = [] → content s'.queues k = content s.queues k →
      (o.popped k ++ content s'.queues k).Perm (content s.queues k ++ o.pushed k) ∧
        (¬ o.AtFront k → o.popped k ++ content s'.queues k = content s.queues k ++ o.pushed k) := by
    intro hr hp hc
    rw [hr, hp, hc, List.nil_append, List.append_nil]
    exact ⟨List.Perm.refl _, fun _ => rfl⟩
  cases hs with
  | @construct k' _ hk =>
      refine hsame rfl rfl ?_
      rw [content_update]
      split
      · next he => rw [he, content, hk]
      · rfl
  | copySelf | copy => exact hsame rfl rfl rfl
  | @assign _ dst copy =>
      refine hsame rfl rfl ?_
      have hne : k ≠ dst := fun he => ho he.symm
      rw [State.assign, content_update, if_neg hne]
  | @sleep _ _ k' _ _ he =>
      refine hsame rfl rfl ?_
      rw [State.sleep, content_update]
      split
      · next hk => rw [hk, content_enters he]
      · rfl
  | @finish _ _ k' c _ he =>
      by_cases hk : k' = k
      · subst hk
        have hc : c ≠ .clear := fun hc => ho ⟨rfl, hc⟩
        rw [State.finish, content_update, if_pos rfl, content_enters he]
        simp only [Output.popped, Output.pushed, Output.AtFront, if_true, true_and]
        exact ⟨body_perm hc, body_eq hc⟩
      · refine hsame (if_neg hk) (if_neg hk) ?_
        rw [State.finish, content_update, if_neg (Ne.symm hk)]

/-! ## Whole histories -/

variable {tr : History T ι κ γ}

/-- Without `clear` and assignment, no element is lost, and none is returned twice. -/
theorem conserved (h : (system T ι κ γ height).Trace tr s)
    (ho : ∀ e ∈ tr, ¬ e.2.Overwrites k) :
    (popped k tr ++ content s.queues k).Perm (pushed k tr) := by
  induction h with
  | nil => exact List.Perm.refl _
  | @snoc tr s a o s' _ hs ih =>
      have ho' := ho (a, o) (by simp)
      have hstep := (content_step (step_of_eq hs) ho').1
      have ih := ih fun e he => ho e (List.mem_append_left _ he)
      rw [pushed_snoc, popped_snoc, List.append_assoc]
      calc (popped k tr ++ (o.popped k ++ content s'.queues k)).Perm
            (popped k tr ++ (content s.queues k ++ o.pushed k)) := hstep.append_left _
        _ = (popped k tr ++ content s.queues k) ++ o.pushed k := (List.append_assoc _ _ _).symm
        List.Perm _ (pushed k tr ++ o.pushed k) := ih.append_right _

/-- If all pushes are at the back, the queue is first in, first out. -/
theorem ordered (h : (system T ι κ γ height).Trace tr s) (ho : ∀ e ∈ tr, ¬ e.2.Overwrites k)
    (hf : ∀ e ∈ tr, ¬ e.2.AtFront k) : popped k tr ++ content s.queues k = pushed k tr := by
  induction h with
  | nil => rfl
  | @snoc tr s a o s' _ hs ih =>
      have ho' := ho (a, o) (by simp)
      have hf' := hf (a, o) (by simp)
      have hstep := (content_step (step_of_eq hs) ho').2 hf'
      have ih := ih (fun e he => ho e (List.mem_append_left _ he))
        (fun e he => hf e (List.mem_append_left _ he))
      calc popped k (tr ++ [(a, o)]) ++ content s'.queues k
          = popped k tr ++ (o.popped k ++ content s'.queues k) := by
            rw [popped_snoc, List.append_assoc]
        _ = (popped k tr ++ content s.queues k) ++ o.pushed k := by
            rw [hstep, List.append_assoc]
        _ = pushed k (tr ++ [(a, o)]) := by rw [ih, pushed_snoc]

/-- A push puts its elements at one end of what is there. -/
theorem push_places {p : Push T} {r : Reply T}
    (hs : Step height s a (.returned k (.push p) r) s') :
    ∃ q : Queue T, q.queue = content s.queues k ∧ content s'.queues k = (q.push p).queue := by
  cases hs with
  | @finish _ _ _ _ sh he =>
      refine ⟨sh.q, (content_enters he).symm, ?_⟩
      rw [State.finish, content_update, if_pos rfl]
      rfl

/-- **A queue conserves and orders its elements.** In every interleaving in which the queue is
not cleared and not assigned to: the elements returned and those in the queue are the elements
pushed; a vector is placed in its own order at the back or the front; `timedPopRange` returns
nothing or between `minimum` and `maximum` elements; and if all pushes are at the back, the
elements returned followed by those in the queue are the elements pushed, in order. -/
theorem queue_conserves (h : (system T ι κ γ height).Trace tr s)
    (ho : ∀ e ∈ tr, ¬ e.2.Overwrites k) :
    (popped k tr ++ content s.queues k).Perm (pushed k tr) ∧
    ((∀ e ∈ tr, ¬ e.2.AtFront k) → popped k tr ++ content s.queues k = pushed k tr) ∧
    (∀ a xs r s', (system T ι κ γ height).step s a
        = some (.returned k (.push (.pushAll xs)) r, s') →
      content s'.queues k = content s.queues k ++ xs) ∧
    (∀ a xs r s', (system T ι κ γ height).step s a
        = some (.returned k (.push (.pushFrontAll xs)) r, s') →
      content s'.queues k = xs ++ content s.queues k) ∧
    ∀ a minimum maximum r s', minimum ≤ maximum → (system T ι κ γ height).step s a
        = some (.returned k (.timedPopRange minimum maximum) r, s') →
      r.elements = [] ∨ minimum ≤ r.elements.length ∧ r.elements.length ≤ maximum := by
  refine ⟨conserved h ho, ordered h ho, ?_, ?_, ?_⟩
  · intro a xs r s' hs
    obtain ⟨q, hq, hq'⟩ := push_places (step_of_eq hs)
    rw [hq', ← hq]
    rfl
  · intro a xs r s' hs
    obtain ⟨q, hq, hq'⟩ := push_places (step_of_eq hs)
    rw [hq', ← hq]
    rfl
  · intro a minimum maximum r s' hle hs
    cases step_of_eq hs with
    | finish => exact timedPopRange_length hle

/-- A vector is pushed to the back, and two of its elements are taken at once. -/
def conservedHistory : History Nat (Fin 2) Unit Unit :=
  let i : Fin 2 := ⟨0, Nat.two_pos⟩
  let j : Fin 2 := ⟨1, Nat.one_lt_two⟩
  [(.construct () 5, .done), (.call i () (.timedPopRange 2 3), .asleep),
    (.call j () (.push (.pushAll [4, 5, 6, 7])),
      .returned () (.push (.pushAll [4, 5, 6, 7])) .done),
    (.wake i, .returned () (.timedPopRange 2 3) (.popped [4, 5, 6]))]

theorem queue_conserves_vector :
    ∃ s, (system Nat (Fin 2) Unit Unit fun _ _ => 1).Trace conservedHistory s ∧
      popped () conservedHistory ++ content s.queues () = pushed () conservedHistory := by
  have h : (system Nat (Fin 2) Unit Unit fun _ _ => 1).Trace conservedHistory _ :=
    Machine.Trace.of_run (conservedHistory.map Prod.fst) rfl
  have ho : ∀ e ∈ conservedHistory, ¬ e.2.Overwrites () := by
    simp [conservedHistory, Output.Overwrites]
  have hf : ∀ e ∈ conservedHistory, ¬ e.2.AtFront () := by
    simp [conservedHistory, Output.AtFront, Call.AtFront]
  exact ⟨_, h, (queue_conserves h ho).2.1 hf⟩

end System

end Lunchbox.MTQueue
