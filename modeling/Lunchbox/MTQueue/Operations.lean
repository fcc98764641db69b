import Lunchbox.MTQueue.Model

set_option autoImplicit false

/-! # `MTQueue`: all operations

The calls on a queue that other threads may use at the same time: for each the predicate that it
waits for (`Shared.ready`) and the body that runs without giving up the mutex (`Shared.body`),
with its reply and whether it calls `notify_all`. The three facts that the proofs use are: a body
that does not notify changes nothing (`body_quiet`); a body that is no push takes elements from
the front (`body_takes`); and a push adds its elements at one end (`Queue.push`).
-/

namespace Lunchbox.MTQueue

variable {T γ : Type}

/-- The state guarded by the mutex of one queue, with the groups that `popBarrier` is called
with on this queue. -/
structure Shared (T γ : Type) where
  q : Queue T
  groups : γ → Group

/-- The calls. `pushAll` and `pushFrontAll` are in `Push`; `index` is `operator[]`, and
`tryPopRange` is the `tryPop` of several elements. -/
inductive Call (T γ : Type)
  | push (p : Push T)
  | pop
  | timedPop
  | timedPopRange (minimum maximum : Nat)
  | tryPop
  | tryPopRange (num : Nat)
  | popBarrier (group : γ)
  | index (i : Nat)
  | waitSize (minSize : Nat)
  | setMaxSize (maxSize : Nat)
  | clear
  | getFront
  | getBack

/-- What a call returns: elements that it removed, an element that it did not, a size, false for
lack of an element, or false at the barrier with the value of the assertion there. -/
inductive Reply (T : Type)
  | done
  | popped (elements : List T)
  | element (x : Option T)
  | size (n : Nat)
  | failed
  | reached (assertion : Bool)

/-- The elements that were removed from the queue. -/
def Reply.elements : Reply T → List T
  | .popped xs => xs
  | _ => []

/-- The elements that a call adds. -/
def Call.pushed : Call T γ → List T
  | .push p => p.elements
  | _ => []

/-- The `size_t` argument that ends up in the state. -/
def Call.Fits : Call T γ → Prop
  | .setMaxSize maxSize => maxSize < sizeRange
  | _ => True

instance (c : Call T γ) : Decidable c.Fits :=
  match c with
  | .setMaxSize maxSize => inferInstanceAs (Decidable (maxSize < sizeRange))
  | .push _ | .pop | .timedPop | .timedPopRange _ _ | .tryPop | .tryPopRange _ | .popBarrier _
  | .index _ | .waitSize _ | .clear | .getFront | .getBack => isTrue trivial

/-- The calls that stop waiting after a while. -/
def Call.timed : Call T γ → Bool
  | .timedPop => true
  | .timedPopRange _ _ => true
  | _ => false

namespace Shared

variable (sh : Shared T γ)

/-- The predicate that a call waits for. -/
def ready : Call T γ → Bool
  | .push p => sh.q.canPush p
  | .pop => !sh.q.queue.isEmpty
  | .timedPop => !sh.q.queue.isEmpty
  | .timedPopRange minimum _ => sh.q.queue.length ≥ minimum
  | .tryPop => true
  | .tryPopRange _ => true
  | .popBarrier g => sh.q.barrierReady (sh.groups g)
  | .index i => sh.q.queue.length > i
  | .waitSize minSize => sh.q.queue.length ≥ minSize
  | .setMaxSize maxSize => sh.q.queue.length ≤ maxSize
  | .clear => true
  | .getFront => true
  | .getBack => true

/-- The outcome of a body. -/
structure Outcome (T γ : Type) where
  reply : Reply T
  notify : Bool
  next : Shared T γ

def setQueue (queue : List T) : Shared T γ := { sh with q := { sh.q with queue := queue } }

/-- Take the front element, or fail: the end of `timedPop` and `tryPop`, and of `pop`, which has
waited for an element and does not fail. -/
def popFront : Outcome T γ :=
  match sh.q.queue with
  | [] => ⟨.failed, false, sh⟩
  | x :: xs => ⟨.popped [x], true, sh.setQueue xs⟩

/-- The loop of `tryPop` over several elements: the result and the rest of the queue. -/
def popLoop : Nat → List T → List T × List T
  | n + 1, x :: q => (x :: (popLoop n q).1, (popLoop n q).2)
  | _, q => ([], q)

variable [DecidableEq γ]

/-- What `popBarrier` does before it waits. -/
def enter : Call T γ → Shared T γ
  | .popBarrier g => { sh with groups := Function.update sh.groups g (sh.groups g).arrive }
  | _ => sh

/-- The body of a call. -/
def body : Call T γ → Outcome T γ
  | .push p => ⟨.done, true, { sh with q := sh.q.push p }⟩
  | .pop => sh.popFront
  | .timedPop => sh.popFront
  | .timedPopRange minimum maximum =>
      if sh.q.queue.length < minimum then ⟨.popped [], false, sh⟩
      else
        let size := min maximum sh.q.queue.length
        ⟨.popped (sh.q.queue.take size), true, sh.setQueue (sh.q.queue.drop size)⟩
  | .tryPop => sh.popFront
  | .tryPopRange num =>
      let size := min num sh.q.queue.length
      if size > 0 then
        ⟨.popped (popLoop size sh.q.queue).1, true, sh.setQueue (popLoop size sh.q.queue).2⟩
      else ⟨.popped [], false, sh⟩
  | .popBarrier g =>
      match sh.q.popBarrier (sh.groups g) with
      | (.popped x, q, g') => ⟨.popped [x], true, ⟨q, Function.update sh.groups g g'⟩⟩
      | (.reached b, _, _) => ⟨.reached b, true, sh⟩
  | .index i => ⟨.element sh.q.queue[i]?, false, sh⟩
  | .waitSize _ => ⟨.size sh.q.queue.length, false, sh⟩
  | .setMaxSize maxSize => ⟨.done, true, { sh with q := { sh.q with maxSize := maxSize } }⟩
  | .clear => ⟨.done, true, sh.setQueue []⟩
  | .getFront => ⟨.element sh.q.queue.head?, false, sh⟩
  | .getBack => ⟨.element sh.q.queue.getLast?, false, sh⟩

end Shared

/-! ## What the bodies do -/

section

variable {sh : Shared T γ}

theorem popLoop_eq (n : Nat) (q : List T) : Shared.popLoop n q = (q.take n, q.drop n) := by
  induction n generalizing q with
  | zero => cases q <;> rfl
  | succ n ih =>
      cases q with
      | nil => rfl
      | cons x q => simp [Shared.popLoop, ih]

theorem popFront_quiet (h : sh.popFront.notify = false) : sh.popFront.next = sh := by
  unfold Shared.popFront at h ⊢
  split
  · rfl
  · next hq =>
      rw [hq] at h
      cases h

/-- Taking from the front. -/
def Takes (sh : Shared T γ) (o : Shared.Outcome T γ) : Prop :=
  ∃ n, o.reply.elements = sh.q.queue.take n ∧ o.next.q.queue = sh.q.queue.drop n

theorem takes_nothing {o : Shared.Outcome T γ} (hr : o.reply.elements = [])
    (hq : o.next.q.queue = sh.q.queue) : Takes sh o := ⟨0, hr, hq⟩

theorem popFront_takes : Takes sh sh.popFront := by
  unfold Shared.popFront
  split
  · exact takes_nothing rfl rfl
  · next x xs hq =>
      refine ⟨1, ?_, ?_⟩
      · rw [hq]
        rfl
      · rw [hq]
        rfl

variable [DecidableEq γ]

@[simp] theorem enter_q (c : Call T γ) : (sh.enter c).q = sh.q := by
  cases c <;> rfl

/-- **A body that does not notify changes nothing.** -/
theorem body_quiet {c : Call T γ} (h : (sh.body c).notify = false) : (sh.body c).next = sh := by
  cases c with
  | push | setMaxSize | clear => cases h
  | pop | timedPop | tryPop => exact popFront_quiet h
  | index | waitSize | getFront | getBack => rfl
  | timedPopRange minimum maximum =>
      simp only [Shared.body] at h ⊢
      split at h
      · next hlt => rw [if_pos hlt]
      · cases h
  | tryPopRange num =>
      simp only [Shared.body] at h ⊢
      split at h
      · cases h
      · next hz => rw [if_neg hz]
  | popBarrier g =>
      unfold Shared.body Queue.popBarrier at h
      cases hq : sh.q.queue with
      | nil =>
          rw [hq] at h
          cases h
      | cons x xs =>
          rw [hq] at h
          cases h

/-- **A body that is neither a push nor `clear` takes elements from the front.** -/
theorem body_takes (sh : Shared T γ) {c : Call T γ} (hp : ∀ p, c ≠ .push p) (hc : c ≠ .clear) :
    Takes sh (sh.body c) := by
  cases c with
  | push p => exact absurd rfl (hp p)
  | clear => exact absurd rfl hc
  | pop | timedPop | tryPop => exact popFront_takes
  | index | waitSize | getFront | getBack | setMaxSize => exact takes_nothing rfl rfl
  | timedPopRange minimum maximum =>
      simp only [Shared.body]
      split
      · exact takes_nothing rfl rfl
      · exact ⟨_, rfl, rfl⟩
  | tryPopRange num =>
      simp only [Shared.body]
      split
      · rw [popLoop_eq]
        exact ⟨_, rfl, rfl⟩
      · exact takes_nothing rfl rfl
  | popBarrier g =>
      simp only [Shared.body, Queue.popBarrier]
      cases hq : sh.q.queue with
      | nil => exact takes_nothing rfl rfl
      | cons x xs =>
          refine ⟨1, ?_, ?_⟩
          · rw [hq]
            rfl
          · rw [hq]
            rfl

theorem body_maxSize (sh : Shared T γ) {c : Call T γ} (h : ∀ m, c ≠ .setMaxSize m) :
    (sh.body c).next.q.maxSize = sh.q.maxSize := by
  cases c with
  | setMaxSize m => exact absurd rfl (h m)
  | push p => cases p <;> rfl
  | clear | index | waitSize | getFront | getBack => rfl
  | pop | timedPop | tryPop =>
      simp only [Shared.body, Shared.popFront]
      split <;> rfl
  | timedPopRange | tryPopRange =>
      simp only [Shared.body]
      split <;> rfl
  | popBarrier g =>
      simp only [Shared.body, Queue.popBarrier]
      cases sh.q.queue <;> rfl

end

end Lunchbox.MTQueue
