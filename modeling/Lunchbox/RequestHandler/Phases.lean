import Lunchbox.Lib.Machine
import Lunchbox.RequestHandler.Pool

set_option autoImplicit false

/-! # The phases of a request

Runs of whole operations of one handler. What a request should answer is read off the history
(`phase`): it is pending from the registration that returned its identifier, served from the
`serveRequest` that finds it pending, and gone once it is unregistered or waited for. The
invariant `Inv` says that the handler's records agree, and with it every answer of the handler
is the one the history calls for.
-/

namespace Lunchbox.RequestHandler

open StateMachine

/-! ## The machine -/

inductive Op
  | registerRequest (data : Nat)
  | serveRequest (id : RequestID) (v : Result)
  | waitRequest (id : RequestID) (k : Kind) (timeout : Nat)
  | unregisterRequest (id : RequestID)
  | isRequestReady (id : RequestID)
  deriving DecidableEq

inductive Output
  | registered (id : RequestID)
  | done
  | waited (ok : Bool) (result : Option Result)
  | ready (b : Bool)
  deriving DecidableEq

/-- One handler, used by whole operations. -/
def handler : Machine Handler Op Output where
  init := Handler.new
  step s
    | .registerRequest data =>
        let (id, s) := s.registerRequest data
        some (.registered id, s)
    | .serveRequest id v => some (.done, s.serveRequest id v)
    | .waitRequest id k timeout =>
        (s.waitRequest id timeout).map fun
          | (none, s) => (.waited false none, s)
          | (some r, s) => (.waited true (k.read r), s)
    | .unregisterRequest id => some (.done, s.unregisterRequest id)
    | .isRequestReady id =>
        let (b, s) := s.isRequestReady id
        some (.ready b, s)

/-! ## What the history says about a request -/

abbrev History := List (Op × Output)

inductive Phase
  | absent
  | pending
  | served (v : Result)
  deriving DecidableEq

def phaseStep (id : RequestID) (ph : Phase) : Op × Output → Phase
  | (.registerRequest _, .registered j) => if j = id then .pending else ph
  | (.serveRequest j v, _) => if j = id ∧ ph ≠ .absent then .served v else ph
  | (.waitRequest j _ _, .waited true _) => if j = id then .absent else ph
  | (.unregisterRequest j, _) => if j = id then .absent else ph
  | _ => ph

/-- The state of the request `id` after a history. -/
def phase (tr : History) (id : RequestID) : Phase := tr.foldl (phaseStep id) .absent

@[simp] theorem phase_snoc (tr : History) (e : Op × Output) (id : RequestID) :
    phase (tr ++ [e]) id = phaseStep id (phase tr id) e := by
  simp [phase]

/-- The handler's records agree with the phase of the request. -/
def Agrees (s : Handler) (id : RequestID) : Phase → Prop
  | .absent => s.requests id = none
  | .pending => ∃ r, s.requests id = some r ∧ (s.records r).locked = true
  | .served v => ∃ r, s.requests id = some r ∧ (s.records r).locked = false ∧
      (s.records r).result = some v

structure Inv (tr : History) (s : Handler) : Prop where
  pool : Pool s
  agrees : ∀ id, Agrees s id (phase tr id)

/-- A served request is left alone until it is waited for: it is not served again, which would
unlock an unlocked mutex, and it is not unregistered. -/
def KeepsServed (tr : History) : Op → Prop
  | .serveRequest id _ => ∀ v, phase tr id ≠ .served v
  | .unregisterRequest id => ∀ v, phase tr id ≠ .served v
  | _ => True

/-! ## The operations keep the invariant -/

/-- A request whose entry and record are untouched keeps its phase. -/
theorem Agrees.of_same {s s' : Handler} {id : RequestID} {ph : Phase} (h : Agrees s id ph)
    (hreq : s'.requests id = s.requests id)
    (hrec : ∀ r, s.requests id = some r → s'.records r = s.records r) : Agrees s' id ph := by
  cases ph with
  | absent => exact hreq.trans h
  | pending =>
      obtain ⟨r, hr, hl⟩ := h
      exact ⟨r, hreq.trans hr, by rw [hrec r hr]; exact hl⟩
  | served v =>
      obtain ⟨r, hr, hl⟩ := h
      exact ⟨r, hreq.trans hr, by rw [hrec r hr]; exact hl⟩

theorem Agrees.absent_iff {s : Handler} {id : RequestID} {ph : Phase} (h : Agrees s id ph) :
    ph = .absent ↔ s.requests id = none := by
  cases ph with
  | absent => exact ⟨fun _ => h, fun _ => rfl⟩
  | pending =>
      obtain ⟨r, hr, -⟩ := h
      simp [hr]
  | served v =>
      obtain ⟨r, hr, -⟩ := h
      simp [hr]

theorem Agrees.locked {s : Handler} {id : RequestID} {ph : Phase} (h : Agrees s id ph)
    (hs : ∀ v, ph ≠ .served v) {r : RecordPtr} (hr : s.requests id = some r) :
    (s.records r).locked = true := by
  cases ph with
  | absent => rw [h] at hr; cases hr
  | pending =>
      obtain ⟨q, hq, hl⟩ := h
      rw [hr, Option.some.injEq] at hq
      rw [hq]
      exact hl
  | served v => exact absurd rfl (hs v)

theorem inv_register {tr : History} {s s' : Handler} {data : Nat} {id : RequestID}
    (hi : Inv tr s) (h : s.registerRequest data = (id, s')) :
    Inv (tr ++ [(.registerRequest data, .registered id)]) s' := by
  obtain ⟨r, hr⟩ := registerRequest_spec hi.pool h
  refine ⟨hi.pool.register hr, fun j => ?_⟩
  rw [phase_snoc]
  by_cases hj : id = j
  · subst hj
    simp only [phaseStep, if_true]
    exact ⟨r, by rw [hr.requests, Function.update_self], hr.locked⟩
  · simp only [phaseStep, hj, if_false]
    refine (hi.agrees j).of_same ?_ ?_
    · rw [hr.requests, Function.update_of_ne (Ne.symm hj)]
    · intro q hq
      exact hr.records q fun he => hr.fresh j (he ▸ hq)

theorem inv_serve {tr : History} {s : Handler} {id : RequestID} {v : Result} (hi : Inv tr s) :
    Inv (tr ++ [(.serveRequest id v, .done)]) (s.serveRequest id v) := by
  cases hid : s.requests id with
  | none =>
      -- serving an unknown request does nothing
      have hs : s.serveRequest id v = s := by simp [Handler.serveRequest, hid]
      have habs : phase tr id = .absent := (hi.agrees id).absent_iff.mpr hid
      rw [hs]
      refine ⟨hi.pool, fun j => ?_⟩
      have hph : phase (tr ++ [(.serveRequest id v, .done)]) j = phase tr j := by
        rw [phase_snoc, phaseStep, if_neg]
        rintro ⟨rfl, hne⟩
        exact hne habs
      rw [hph]
      exact hi.agrees j
  | some r =>
      have hs : s.serveRequest id v = s.setRecord r ⟨false, (s.records r).data, some v⟩ := by
        rw [← complete_eq, Handler.serveRequest, hid]
      rw [hs]
      refine ⟨hi.pool.setRecord (hi.pool.apart id r hid) _, fun j => ?_⟩
      rw [phase_snoc, phaseStep]
      by_cases hji : id = j
      · subst hji
        have hne : phase tr id ≠ .absent := by
          rw [ne_eq, (hi.agrees id).absent_iff, hid]
          exact Option.some_ne_none r
        rw [if_pos ⟨rfl, hne⟩]
        exact ⟨r, hid, by simp, by simp⟩
      · -- the other requests have other records
        rw [if_neg fun h => hji h.1]
        refine (hi.agrees j).of_same rfl fun q hq => setRecord_ne s _ ?_
        rintro rfl
        exact hji (hi.pool.inj id j q hid hq)

/-- Taking `id` out of the map. The record that goes to the free list must be locked; the
other requests must agree with the history already. -/
theorem inv_unregister {tr : History} {s : Handler} {id : RequestID} {e : Op × Output}
    (hp : Pool s) (hl : ∀ r, s.requests id = some r → (s.records r).locked = true)
    (ha : ∀ j, j ≠ id → Agrees s j (phase tr j))
    (he : ∀ j, phaseStep j (phase tr j) e = if id = j then .absent else phase tr j) :
    Inv (tr ++ [e]) (s.unregisterRequest id) := by
  refine ⟨hp.unregister hl, fun j => ?_⟩
  rw [phase_snoc, he]
  by_cases hj : id = j
  · rw [if_pos hj, ← hj]
    show (s.unregisterRequest id).requests id = none
    rw [unregisterRequest_requests, Function.update_self]
  · rw [if_neg hj]
    refine (ha j (Ne.symm hj)).of_same ?_ fun q _ => by rw [unregisterRequest_records]
    rw [unregisterRequest_requests, Function.update_of_ne (Ne.symm hj)]

/-! ## The answer of a wait -/

/-- What a wait must do in each phase of its request. -/
inductive Waits (tr : History) (s : Handler) (id : RequestID) (k : Kind) (timeout : Nat) :
    Option (Output × Handler) → Prop
  | absent (hph : phase tr id = .absent) :
      Waits tr s id k timeout (some (.waited false none, s))
  | blocks (hph : phase tr id = .pending) (ht : timeout = timeoutIndefinite) :
      Waits tr s id k timeout none
  | timedOut (hph : phase tr id = .pending) (ht : timeout ≠ timeoutIndefinite) :
      Waits tr s id k timeout (some (.waited false none, s))
  | served (v : Result) (r : RecordPtr) (hph : phase tr id = .served v)
      (hr : s.requests id = some r) :
      Waits tr s id k timeout (some (.waited true (k.read (some v)),
        (s.setRecord r { s.records r with locked := true }).unregisterRequest id))

theorem wait_step {tr : History} {s : Handler} (hi : Inv tr s) (id : RequestID) (k : Kind)
    (timeout : Nat) :
    Waits tr s id k timeout (handler.step s (.waitRequest id k timeout)) := by
  have ha := hi.agrees id
  cases hph : phase tr id with
  | absent =>
      rw [hph] at ha
      have hw := waitRequest_absent ha timeout
      simp only [handler, hw, Option.map_some]
      exact .absent hph
  | pending =>
      rw [hph] at ha
      obtain ⟨r, hr, hl⟩ := ha
      have hw := waitRequest_locked hr hl timeout
      simp only [handler, hw]
      by_cases ht : timeout = timeoutIndefinite
      · simp only [if_pos ht, Option.map_none]
        exact .blocks hph ht
      · simp only [if_neg ht, Option.map_some]
        exact .timedOut hph ht
  | served v =>
      rw [hph] at ha
      obtain ⟨r, hr, hl, hv⟩ := ha
      have hw := (waitRequest_unlocked hr hl timeout).trans
        (congrArg (fun x => some (some x, _)) hv)
      simp only [handler, hw, Option.map_some]
      exact .served v r hph hr

theorem wait_of_served {tr : History} {s : Handler} {id : RequestID} {v : Result} (hi : Inv tr s)
    (hv : phase tr id = .served v) (k : Kind) (timeout : Nat) :
    ∃ s', handler.step s (.waitRequest id k timeout)
      = some (.waited true (k.read (some v)), s') := by
  have hw := wait_step hi id k timeout
  generalize handler.step s (.waitRequest id k timeout) = o at hw
  cases hw with
  | absent hph => rw [hv] at hph; cases hph
  | blocks hph _ => rw [hv] at hph; cases hph
  | timedOut hph _ => rw [hv] at hph; cases hph
  | served w r hph hr =>
      rw [hv, Phase.served.injEq] at hph
      rw [hph]
      exact ⟨_, rfl⟩

theorem wait_of_absent {tr : History} {s : Handler} {id : RequestID} (hi : Inv tr s)
    (hv : phase tr id = .absent) (k : Kind) (timeout : Nat) :
    handler.step s (.waitRequest id k timeout) = some (.waited false none, s) := by
  have hid := (hi.agrees id).absent_iff.mp hv
  simp only [handler, waitRequest_absent hid, Option.map_some]

/-- A wait that fails changes nothing. -/
theorem wait_failed {tr : History} {s s' : Handler} {id : RequestID} {k : Kind} {timeout : Nat}
    {x : Option Result} (hi : Inv tr s)
    (hs : handler.step s (.waitRequest id k timeout) = some (.waited false x, s')) : s' = s := by
  have hw := wait_step hi id k timeout
  rw [hs] at hw
  cases hw <;> rfl

theorem inv_waited {tr : History} {s s' : Handler} {id : RequestID} {k : Kind} {timeout : Nat}
    {b : Output} (hi : Inv tr s)
    (hs : handler.step s (.waitRequest id k timeout) = some (b, s')) :
    Inv (tr ++ [(.waitRequest id k timeout, b)]) s' := by
  have hw := wait_step hi id k timeout
  rw [hs] at hw
  -- an unsuccessful wait changes neither the handler nor a phase
  have quiet : s' = s → b = .waited false none →
      Inv (tr ++ [(.waitRequest id k timeout, b)]) s' := by
    rintro rfl rfl
    refine ⟨hi.pool, fun j => ?_⟩
    rw [phase_snoc]
    exact hi.agrees j
  cases hw with
  | absent _ => exact quiet rfl rfl
  | timedOut _ _ => exact quiet rfl rfl
  | served v r hph hr =>
      -- the wait has locked the record before it gives it back
      refine inv_unregister (hi.pool.setRecord (hi.pool.apart id r hr) _) ?_ ?_ fun _ => rfl
      · intro q hq
        rw [setRecord_requests, hr, Option.some.injEq] at hq
        rw [← hq, setRecord_same]
      · intro j hj
        refine (hi.agrees j).of_same rfl fun q hq => setRecord_ne s _ ?_
        rintro rfl
        exact hj (hi.pool.inj j id q hq hr)

/-! ## Every run keeps the invariant -/

theorem inv_init : Inv [] handler.init := ⟨pool_new, fun _ => rfl⟩

theorem inv_step {tr : History} {s s' : Handler} {a : Op} {b : Output} (hi : Inv tr s)
    (hC : KeepsServed tr a) (hs : handler.step s a = some (b, s')) : Inv (tr ++ [(a, b)]) s' := by
  cases a with
  | registerRequest data =>
      simp only [handler, Option.some.injEq, Prod.mk.injEq] at hs
      obtain ⟨rfl, rfl⟩ := hs
      exact inv_register hi rfl
  | serveRequest id v =>
      simp only [handler, Option.some.injEq, Prod.mk.injEq] at hs
      obtain ⟨rfl, rfl⟩ := hs
      exact inv_serve hi
  | waitRequest id k timeout => exact inv_waited hi hs
  | unregisterRequest id =>
      simp only [handler, Option.some.injEq, Prod.mk.injEq] at hs
      obtain ⟨rfl, rfl⟩ := hs
      exact inv_unregister hi.pool (fun r => (hi.agrees id).locked hC)
        (fun j _ => hi.agrees j) fun _ => rfl
  | isRequestReady id =>
      simp only [handler, isRequestReady_eq, Option.some.injEq, Prod.mk.injEq] at hs
      obtain ⟨rfl, rfl⟩ := hs
      refine ⟨hi.pool, fun j => ?_⟩
      rw [phase_snoc]
      exact hi.agrees j

theorem inv_of_trace {tr : History} {s : Handler} (h : handler.Trace tr s)
    (hC : Respects KeepsServed tr) : Inv tr s :=
  h.inv Inv inv_init (fun _ _ _ _ _ _ _ hC hi hs => inv_step hi hC hs) hC

/-! ## A new request is not ready -/

theorem phase_append (pre post : History) (id : RequestID) :
    phase (pre ++ post) id = post.foldl (phaseStep id) (phase pre id) := by
  simp [phase]

/-- Only `serveRequest` makes a request served. -/
theorem phaseStep_served {id : RequestID} {ph : Phase} {e : Op × Output} {v : Result}
    (h : phaseStep id ph e = .served v) : ph = .served v ∨ e.1 = .serveRequest id v := by
  unfold phaseStep at h
  split at h
  · split_ifs at h
    exact Or.inl h
  · split_ifs at h with hj
    · cases h
      rw [hj.1]
      exact Or.inr rfl
    · exact Or.inl h
  · split_ifs at h
    exact Or.inl h
  · split_ifs at h
    exact Or.inl h
  · exact Or.inl h

theorem foldl_served {id : RequestID} {post : History} {ph : Phase} {v : Result}
    (h : post.foldl (phaseStep id) ph = .served v) :
    ph = .served v ∨ ∃ b, (.serveRequest id v, b) ∈ post := by
  induction post generalizing ph with
  | nil => exact Or.inl h
  | cons e post ih =>
      rcases ih h with hph | ⟨b, hb⟩
      · rcases phaseStep_served hph with hph | he
        · exact Or.inl hph
        · exact Or.inr ⟨e.2, by rw [← he]; exact List.mem_cons_self⟩
      · exact Or.inr ⟨b, List.mem_cons_of_mem e hb⟩

/-- A request that is not served is not ready, and a wait for it does not succeed. -/
theorem unserved_not_ready {tr : History} {s : Handler} {id : RequestID} (hi : Inv tr s)
    (hs : ∀ v, phase tr id ≠ .served v) :
    s.isRequestReady id = (false, s) ∧
      ∀ timeout, timeout ≠ timeoutIndefinite → s.waitRequest id timeout = some (none, s) := by
  cases hid : s.requests id with
  | none =>
      refine ⟨?_, fun timeout _ => waitRequest_absent hid timeout⟩
      rw [isRequestReady_eq, hid]
  | some r =>
      have hl := (hi.agrees id).locked hs hid
      refine ⟨?_, fun timeout ht => ?_⟩
      · simp [isRequestReady_eq, hid, hl]
      · rw [waitRequest_locked hid hl, if_neg ht]

/-- **A new request is not fulfilled.** In a run in which every served request is waited for
before it is unregistered, a request is not ready, and waits for it time out, as long as
`serveRequest` was not called for it since its registration. -/
theorem new_request_not_ready {tr pre post : History} {s : Handler} {data : Nat}
    {id : RequestID} (h : handler.Trace tr s) (hC : Respects KeepsServed tr)
    (htr : tr = pre ++ (.registerRequest data, .registered id) :: post)
    (hns : ∀ v b, (.serveRequest id v, b) ∉ post) :
    s.isRequestReady id = (false, s) ∧
      ∀ timeout, timeout ≠ timeoutIndefinite → s.waitRequest id timeout = some (none, s) := by
  apply unserved_not_ready (inv_of_trace h hC)
  intro v hv
  have hreg : phaseStep id (phase pre id) (.registerRequest data, .registered id) = .pending :=
    if_pos rfl
  rw [htr, phase_append, List.foldl_cons, hreg] at hv
  rcases foldl_served hv with hp | ⟨b, hb⟩
  · cases hp
  · exact hns v b hb

/-- A request is served and waited for; the next one gets its record. -/
def reusedHistory : History :=
  [(.registerRequest 0, .registered 2), (.serveRequest 2 (.rUint32 7), .done),
    (.waitRequest 2 .uint32 0, .waited true (some (.rUint32 7))),
    (.registerRequest 0, .registered 3)]

theorem new_request_not_ready_reused :
    ∃ s, handler.Trace reusedHistory s ∧ s.isRequestReady 3 = (false, s) ∧
      s.waitRequest 3 1000 = some (none, s) := by
  have h : handler.Trace reusedHistory _ :=
    Machine.Trace.of_run [.registerRequest 0, .serveRequest 2 (.rUint32 7),
      .waitRequest 2 .uint32 0, .registerRequest 0] rfl
  have hC : Respects KeepsServed reusedHistory :=
    respects_of_checks (by simp [reusedHistory, checks, KeepsServed, phase, phaseStep])
  have htr : reusedHistory
      = reusedHistory.take 3 ++ (.registerRequest 0, .registered 3) :: [] := rfl
  obtain ⟨hready, hwait⟩ := new_request_not_ready h hC htr (by simp)
  exact ⟨_, h, hready, hwait 1000 (by decide)⟩

/-- Without the condition a request can be born ready. The request 2 is served and then
unregistered, so its unlocked record is the one that the request 3 gets: 3 is ready and waiting
for it yields the answer of 2. -/
theorem recycled_request_ready :
    ∃ s s', handler.Trace [(.registerRequest 0, .registered 2),
        (.serveRequest 2 (.rUint32 7), .done), (.unregisterRequest 2, .done),
        (.registerRequest 0, .registered 3)] s ∧
      (s.isRequestReady 3).1 = true ∧ s.waitRequest 3 0 = some (some (some (.rUint32 7)), s') :=
  ⟨_, _, Machine.Trace.of_run [.registerRequest 0, .serveRequest 2 (.rUint32 7),
    .unregisterRequest 2, .registerRequest 0] rfl, rfl, rfl⟩

end Lunchbox.RequestHandler
