import Lunchbox.RequestHandler.Phases

set_option autoImplicit false

/-! # `Request`, the future of a request

A `Request<T>` (`request.h`) is a future on one request of a handler. It has three states of its
own, and the handler has a map and a pool that know nothing of them. The invariant `Held` keeps
the two in step: while the future is unresolved its identifier is in the map, pending or served as
the history says; afterwards the identifier has left the map, once, and does not come back, since
identifiers are not used again.
-/

namespace Lunchbox.Request

open StateMachine RequestHandler

/-! ## The future -/

/-- `Request<T>::Impl::State` -/
inductive ImplState
  | unresolved | done | unregistered
  deriving DecidableEq, Repr

/-- `Request<T>::Impl`. The type `T` is given by the overload of `waitRequest` that it uses; that
of `void` is `pointer`. The `result` is what the last successful wait read. -/
structure Impl where
  request : RequestID
  kind : Kind
  result : Option Result
  state : ImplState

def Impl.new (kind : Kind) (id : RequestID) : Impl := ⟨id, kind, none, .unresolved⟩

/-- What a step shows: the output of an operation of the handler, or the outcome of one of the
future, with its two exceptions. -/
inductive Output
  | handler (o : RequestHandler.Output)
  | created (id : RequestID)
  | returned (r : Option Result)
  | futureTimeout
  | unregisteredRequest
  | ready (b : Bool)
  | done
  | destructed (waited : Bool)

namespace Impl

variable (f : Impl) (h : Handler)

/-- `wait`, refused (`none`) where it blocks. -/
def wait (timeout : Nat) : Option (Output × Impl × Handler) :=
  match f.state with
  | .unregistered => some (.unregisteredRequest, f, h)
  | .unresolved =>
      match h.waitRequest f.request timeout with
      | none => none
      | some (none, h) => some (.futureTimeout, f, h)
      | some (some u, h) =>
          some (.returned (f.kind.read u), { f with result := f.kind.read u, state := .done }, h)
  | .done => some (.returned f.result, f, h)

def isReady : Output × Impl × Handler :=
  match f.state with
  | .unresolved => (.ready (h.isRequestReady f.request).1, f, (h.isRequestReady f.request).2)
  | .unregistered => (.ready false, f, h)
  | .done => (.ready true, f, h)

def unregister : Output × Impl × Handler :=
  match f.state with
  | .unresolved => (.done, { f with state := .unregistered }, h.unregisterRequest f.request)
  | _ => (.done, f, h)

/-- `~Request`. An exception from its `wait` would terminate the program. -/
def destruct : Option (Output × Impl × Handler) :=
  match f.state with
  | .unresolved =>
      match f.wait h timeoutIndefinite with
      | some (.returned _, f, h) => some (.destructed true, f, h)
      | _ => none
  | _ => some (.destructed false, f, h)

end Impl

/-! ## The machine -/

/-- A handler and one future on it, from before its registration to after its destruction, with
the number of times that its identifier has left the map. -/
structure State where
  handler : Handler
  impl : Option Impl
  alive : Bool
  removed : Nat

inductive Action
  | handler (op : Op)
  | create (kind : Kind) (data : Nat)
  | wait (timeout : Nat)
  | isReady
  | unregister
  | destruct

/-- The identifier of the future is in the map before, and not after. -/
def leaves (f : Impl) (h h' : Handler) : Nat :=
  if (h.requests f.request).isSome && (h'.requests f.request).isNone then 1 else 0

def State.setHandler (s : State) (h : Handler) : State :=
  { s with
    handler := h
    removed := match s.impl with
      | none => s.removed
      | some f => s.removed + leaves f s.handler h }

/-- An operation of the future, while it exists. -/
def State.call (s : State) (g : Impl → Handler → Option (Output × Impl × Handler)) :
    Option (Output × State) :=
  match s.impl with
  | none => none
  | some f =>
      if s.alive then
        (g f s.handler).map fun r => (r.1, { s with impl := some r.2.1 }.setHandler r.2.2)
      else none

/-- The future and other users of its handler. -/
def request : Machine State Action Output where
  init := ⟨Handler.new, none, true, 0⟩
  step s
    | .handler op => (handler.step s.handler op).map fun r => (.handler r.1, s.setHandler r.2)
    | .create kind data =>
        match s.impl with
        | some _ => none
        | none =>
            let (id, h) := s.handler.registerRequest data
            some (.created id, { s with handler := h, impl := some (Impl.new kind id) })
    | .wait timeout => s.call fun f h => f.wait h timeout
    | .isReady => s.call fun f h => some (f.isReady h)
    | .unregister => s.call fun f h => some (f.unregister h)
    | .destruct =>
        (s.call fun f h => f.destruct h).map fun r => (r.1, { r.2 with alive := false })

/-! ## What the history says -/

abbrev History := List (Action × Output)

/-- The number of registrations, the identifier and type of the future, and the value that it was
served with. -/
structure Log where
  registrations : Nat
  owner : Option (RequestID × Kind)
  served : Option Result

def Log.add (l : Log) : Action × Output → Log
  | (.handler (.registerRequest _), _) => { l with registrations := l.registrations + 1 }
  | (.handler (.serveRequest id v), _) =>
      if l.owner.map Prod.fst = some id then { l with served := some v } else l
  | (.create kind _, .created id) =>
      { l with registrations := l.registrations + 1, owner := some (id, kind) }
  | _ => l

def log (tr : History) : Log := tr.foldl Log.add ⟨0, none, none⟩

@[simp] theorem log_snoc (tr : History) (e : Action × Output) :
    log (tr ++ [e]) = (log tr).add e := by
  simp [log]

/-- Some wait has returned. -/
def Returned (tr : History) : Prop := ∃ t r, (.wait t, .returned r) ∈ tr

/-- `unregister` was called. -/
def Unregistered (tr : History) : Prop := ∃ o, (.unregister, o) ∈ tr

theorem Returned.append {tr : History} (h : Returned tr) (post : History) :
    Returned (tr ++ post) := by
  obtain ⟨t, r, hm⟩ := h
  exact ⟨t, r, List.mem_append_left _ hm⟩

theorem Unregistered.append {tr : History} (h : Unregistered tr) (post : History) :
    Unregistered (tr ++ post) := by
  obtain ⟨o, hm⟩ := h
  exact ⟨o, List.mem_append_left _ hm⟩

/-- Fewer than `LB_MAX_UINT32` registrations; the future's request is served at most once, with a
value of its type, and waited for by the future only; other requests are not unregistered. -/
def Proper (tr : History) : Action → Prop
  | .handler (.registerRequest _) => (log tr).registrations + 1 < maxUint32
  | .create _ _ => (log tr).registrations + 1 < maxUint32
  | .handler (.serveRequest id v) =>
      ∀ k, (log tr).owner = some (id, k) → (log tr).served = none ∧ v.kind = k
  | .handler (.waitRequest id _ _) => (log tr).owner.map Prod.fst ≠ some id
  | .handler (.unregisterRequest _) => False
  | _ => True

/-! ## Operations on other requests -/

/-- The operation does not touch the request `id`, and unregisters none. -/
def Spares (id : RequestID) : Op → Prop
  | .serveRequest j _ => j ≠ id
  | .waitRequest j _ _ => j ≠ id
  | .unregisterRequest _ => False
  | .registerRequest _ => True
  | .isRequestReady _ => True

variable {h h' : Handler} {op : Op} {o : RequestHandler.Output} {id : RequestID}

theorem takeRecord_requests (h : Handler) : h.takeRecord.2.requests = h.requests := by
  unfold Handler.takeRecord
  cases h.freeRecords <;> rfl

theorem takeRecord_requestID (h : Handler) : h.takeRecord.2.requestID = h.requestID := by
  unfold Handler.takeRecord
  cases h.freeRecords <;> rfl

theorem registerRequest_requests (h : Handler) (data : Nat) :
    (h.registerRequest data).2.requests
      = Function.update h.requests (h.registerRequest data).1 (some h.takeRecord.1) := by
  simp only [Handler.registerRequest, setRecord_requests, takeRecord_requests]

theorem registerRequest_id (h : Handler) (data : Nat) :
    (h.registerRequest data).1 = (h.requestID + 1) % maxUint32 ∧
      (h.registerRequest data).2.requestID = (h.requestID + 1) % maxUint32 := by
  simp only [Handler.registerRequest, setRecord_requestID, takeRecord_requestID, and_self]

theorem exists_registered (hp : Pool h) (data : Nat) :
    ∃ r, Registered h (h.registerRequest data).2 (h.registerRequest data).1 r :=
  registerRequest_spec hp (Prod.mk.eta (p := h.registerRequest data)).symm

/-- A wait leaves the handler as it is, or takes the result and gives the locked record back. -/
theorem waitRequest_cases {j : RequestID} {timeout : Nat} {x : Option (Option Result)}
    (hw : h.waitRequest j timeout = some (x, h')) :
    h' = h ∨ ∃ r, h.requests j = some r ∧
      h' = (h.setRecord r { h.records r with locked := true }).unregisterRequest j := by
  cases hj : h.requests j with
  | none =>
      rw [waitRequest_absent hj] at hw
      cases hw
      exact Or.inl rfl
  | some r =>
      cases hl : (h.records r).locked with
      | true =>
          rw [waitRequest_locked hj hl] at hw
          split at hw
          · cases hw
          · cases hw
            exact Or.inl rfl
      | false =>
          rw [waitRequest_unlocked hj hl] at hw
          cases hw
          exact Or.inr ⟨r, rfl, rfl⟩

/-- What an operation on another request can be, seen from the request `id`. -/
theorem step_cases (hs : handler.step h op = some (o, h')) (hop : ∀ j, op ≠ .unregisterRequest j) :
    (∃ data, op = .registerRequest data ∧ o = .registered (h.registerRequest data).1 ∧
      h' = (h.registerRequest data).2) ∨
    (∃ j v r, op = .serveRequest j v ∧ h.requests j = some r ∧
      h' = h.setRecord r ⟨false, (h.records r).data, some v⟩) ∨
    (∃ j k timeout r, op = .waitRequest j k timeout ∧ h.requests j = some r ∧
      h' = (h.setRecord r { h.records r with locked := true }).unregisterRequest j) ∨
    (h' = h ∧ ∀ data, op ≠ .registerRequest data) := by
  cases op with
  | registerRequest data =>
      cases hs
      exact Or.inl ⟨data, rfl, rfl, rfl⟩
  | serveRequest j v =>
      cases hs
      cases hj : h.requests j with
      | none =>
          refine Or.inr (Or.inr (Or.inr ⟨?_, by simp⟩))
          simp only [Handler.serveRequest, hj]
      | some r =>
          refine Or.inr (Or.inl ⟨j, v, r, rfl, hj, ?_⟩)
          rw [← complete_eq, Handler.serveRequest, hj]
  | waitRequest j k timeout =>
      obtain ⟨⟨x, h1⟩, hw, he⟩ := Option.map_eq_some_iff.mp hs
      have hh : h1 = h' := by
        cases x with
        | none | some => exact congrArg Prod.snd he
      subst hh
      rcases waitRequest_cases hw with rfl | ⟨r, hr, rfl⟩
      · exact Or.inr (Or.inr (Or.inr ⟨rfl, by simp⟩))
      · exact Or.inr (Or.inr (Or.inl ⟨j, k, timeout, r, rfl, hr, rfl⟩))
  | unregisterRequest j => exact absurd rfl (hop j)
  | isRequestReady j =>
      simp only [handler, isRequestReady_eq, Option.some.injEq, Prod.mk.injEq] at hs
      exact Or.inr (Or.inr (Or.inr ⟨hs.2.symm, by simp⟩))

theorem step_pool (hp : Pool h) (hs : handler.step h op = some (o, h'))
    (hop : ∀ j, op ≠ .unregisterRequest j) : Pool h' := by
  rcases step_cases hs hop with ⟨data, -, -, rfl⟩ | ⟨j, v, r, -, hr, rfl⟩ |
    ⟨j, k, timeout, r, -, hr, rfl⟩ | ⟨rfl, -⟩
  · obtain ⟨r, hr⟩ := exists_registered hp data
    exact hp.register hr
  · exact hp.setRecord (hp.apart j r hr) _
  · refine (hp.setRecord (hp.apart j r hr) _).unregister ?_
    intro q hq
    rw [setRecord_requests, hr, Option.some.injEq] at hq
    rw [← hq, setRecord_same]
  · exact hp

theorem step_requestID (hs : handler.step h op = some (o, h'))
    (hop : ∀ j, op ≠ .unregisterRequest j) :
    (∃ data, op = .registerRequest data) ∧ h'.requestID = (h.requestID + 1) % maxUint32 ∨
      (∀ data, op ≠ .registerRequest data) ∧ h'.requestID = h.requestID := by
  rcases step_cases hs hop with ⟨data, rfl, -, rfl⟩ | ⟨j, v, r, rfl, hr, rfl⟩ |
    ⟨j, k, timeout, r, rfl, hr, rfl⟩ | ⟨rfl, hop⟩
  · exact Or.inl ⟨⟨data, rfl⟩, (registerRequest_id h data).2⟩
  · exact Or.inr ⟨by simp, rfl⟩
  · exact Or.inr ⟨by simp, by simp⟩
  · exact Or.inr ⟨hop, rfl⟩

theorem Spares.not_unregister (hsp : Spares id op) (j : RequestID) : op ≠ .unregisterRequest j := by
  rintro rfl
  exact hsp

/-- The entry of a request that is spared stays, whatever the pool looks like. -/
theorem step_requests (hs : handler.step h op = some (o, h')) (hsp : Spares id op)
    (hnew : ∀ data, op = .registerRequest data → (h.requestID + 1) % maxUint32 ≠ id) :
    h'.requests id = h.requests id := by
  rcases step_cases hs hsp.not_unregister with ⟨data, rfl, -, rfl⟩ | ⟨j, v, r, rfl, hr, rfl⟩ |
    ⟨j, k, timeout, r, rfl, hr, rfl⟩ | ⟨rfl, -⟩
  · have hne := hnew data rfl
    rw [registerRequest_requests, (registerRequest_id h data).1, Function.update_of_ne hne.symm]
  · rfl
  · rw [unregisterRequest_requests, Function.update_of_ne (Ne.symm hsp), setRecord_requests]
  · rfl

/-- Operations on other requests use other records. -/
theorem step_agrees {ph : Phase} (hp : Pool h) (ha : Agrees h id ph)
    (hs : handler.step h op = some (o, h')) (hsp : Spares id op)
    (hnew : ∀ data, op = .registerRequest data → (h.requestID + 1) % maxUint32 ≠ id) :
    Agrees h' id ph := by
  refine ha.of_same (step_requests hs hsp hnew) ?_
  intro q hq
  rcases step_cases hs hsp.not_unregister with ⟨data, rfl, -, rfl⟩ | ⟨j, v, r, rfl, hr, rfl⟩ |
    ⟨j, k, timeout, r, rfl, hr, rfl⟩ | ⟨rfl, -⟩
  · obtain ⟨r, hr⟩ := exists_registered hp data
    exact hr.records q fun he => hr.fresh id (he ▸ hq)
  · refine setRecord_ne h _ fun he => hsp (hp.inj j id r hr ?_)
    rw [← he, hq]
  · rw [unregisterRequest_records]
    refine setRecord_ne h _ fun he => hsp (hp.inj j id r hr ?_)
    rw [← he, hq]
  · rfl

/-! ## The future and the handler in step -/

/-- What the handler has to say about the identifier of an unresolved future. -/
def asked : Option Result → Phase
  | none => .pending
  | some v => .served v

structure Held (tr : History) (s : State) (f : Impl) : Prop where
  owner : (log tr).owner = some (f.request, f.kind)
  issued : ∃ n, n < (log tr).registrations ∧ f.request = (n + 2) % maxUint32
  typed : ∀ v, (log tr).served = some v → v.kind = f.kind
  -- the identifier is in the map while the future is unresolved, and leaves it once
  pending : f.state = .unresolved → Pool s.handler ∧ s.removed = 0 ∧
    Agrees s.handler f.request (asked (log tr).served)
  gone : f.state ≠ .unresolved → s.handler.requests f.request = none ∧ s.removed = 1
  value : f.state = .done → ∃ v, (log tr).served = some v ∧ f.result = some v
  -- the events that resolve the future
  waited : ∀ t r, (.wait t, .returned r) ∈ tr → f.state = .done ∧ f.result = r
  dropped : ∀ o, (.unregister, o) ∈ tr → f.state ≠ .unresolved
  done : s.alive = true → f.state = .done → Returned tr
  unregistered : f.state = .unregistered → Unregistered tr
  dead : s.alive = false → f.state ≠ .unresolved

/-- Before the future is created. -/
structure Idle (tr : History) (s : State) : Prop where
  pool : Pool s.handler
  alive : s.alive = true
  removed : s.removed = 0
  owner : (log tr).owner = none
  served : (log tr).served = none
  quiet : ∀ e ∈ tr, ∃ op o, e = (.handler op, .handler o)

structure Inv (tr : History) (s : State) : Prop where
  few : (log tr).registrations < maxUint32
  counter : s.handler.requestID = ((log tr).registrations + 1) % maxUint32
  idle : s.impl = none → Idle tr s
  held : ∀ f, s.impl = some f → Held tr s f

theorem inv_init : Inv [] request.init where
  few := by decide
  counter := rfl
  idle _ := ⟨pool_new, rfl, rfl, rfl, rfl, by simp⟩
  held f hf := by cases hf

variable {tr : History} {s s' : State} {f f' : Impl} {e : Action × Output}

/-! ### The operations of the future -/

theorem Agrees.present {r : Option Result} (ha : Agrees h id (asked r)) :
    ∃ q, h.requests id = some q := by
  cases r with
  | none =>
      obtain ⟨q, hq, -⟩ := ha
      exact ⟨q, hq⟩
  | some v =>
      obtain ⟨q, hq, -⟩ := ha
      exact ⟨q, hq⟩

theorem wait_pending (hst : f.state = .unresolved) (ha : Agrees h f.request .pending)
    (timeout : Nat) :
    f.wait h timeout
      = if timeout = timeoutIndefinite then none else some (.futureTimeout, f, h) := by
  obtain ⟨r, hr, hl⟩ := ha
  by_cases ht : timeout = timeoutIndefinite
  · simp only [Impl.wait, hst, waitRequest_locked hr hl, if_pos ht]
  · simp only [Impl.wait, hst, waitRequest_locked hr hl, if_neg ht]

theorem wait_served {v : Result} (hst : f.state = .unresolved)
    (ha : Agrees h f.request (.served v)) (hv : v.kind = f.kind) (timeout : Nat) :
    ∃ h', f.wait h timeout
        = some (.returned (some v), { f with result := some v, state := .done }, h') ∧
      h'.requests f.request = none ∧ h'.requestID = h.requestID := by
  obtain ⟨r, hr, hl, hres⟩ := ha
  have hread : f.kind.read (some v) = some v := by simp [Kind.read, hv]
  refine ⟨(h.setRecord r { h.records r with locked := true }).unregisterRequest f.request,
    ?_, ?_, ?_⟩
  · simp only [Impl.wait, hst, waitRequest_unlocked hr hl, hres, hread]
  · rw [unregisterRequest_requests, Function.update_self]
  · rw [unregisterRequest_requestID, setRecord_requestID]

theorem leaves_same (hr : h'.requests f.request = h.requests f.request) : leaves f h h' = 0 := by
  unfold leaves
  rw [hr]
  cases h.requests f.request <;> rfl

theorem leaves_gone {q : RecordPtr} (hr : h.requests f.request = some q)
    (hr' : h'.requests f.request = none) : leaves f h h' = 1 := by
  simp [leaves, hr, hr']

theorem setHandler_self (hf : s.impl = some f) :
    { s with impl := some f }.setHandler s.handler = s := by
  obtain ⟨handler, impl, alive, removed⟩ := s
  subst hf
  simp only [State.setHandler, leaves_same, Nat.add_zero]

theorem call_eq (hf : s.impl = some f) (ha : s.alive = true)
    (g : Impl → Handler → Option (Output × Impl × Handler)) :
    s.call g
      = (g f s.handler).map fun r => (r.1, { s with impl := some r.2.1 }.setHandler r.2.2) := by
  simp only [State.call, hf, ha, if_true]

theorem call_inv {g : Impl → Handler → Option (Output × Impl × Handler)} {o : Output}
    (hs : s.call g = some (o, s')) :
    ∃ f f' h', s.impl = some f ∧ s.alive = true ∧ g f s.handler = some (o, f', h') ∧
      s' = { s with impl := some f' }.setHandler h' := by
  obtain ⟨handler, impl, alive, removed⟩ := s
  cases impl with
  | none => cases hs
  | some f =>
      cases alive with
      | false => cases hs
      | true =>
          obtain ⟨⟨o', f', h'⟩, hg, he⟩ := Option.map_eq_some_iff.mp hs
          cases he
          exact ⟨f, f', h', rfl, rfl, hg, rfl⟩

/-! ### The invariant along the operations of the future -/

/-- An event that does not change the future: the handler still has its identifier, or still has
it no more. -/
theorem Held.extend (h : Held tr s f) (hown : (log (tr ++ [e])).owner = (log tr).owner)
    (hreg : (log tr).registrations ≤ (log (tr ++ [e])).registrations)
    (htyped : ∀ v, (log (tr ++ [e])).served = some v → v.kind = f.kind)
    (hvalue : f.state = .done → (log (tr ++ [e])).served = (log tr).served)
    (hpending : f.state = .unresolved →
      Pool s'.handler ∧ Agrees s'.handler f.request (asked (log (tr ++ [e])).served))
    (hgone : f.state ≠ .unresolved → s'.handler.requests f.request = none)
    (halive : s'.alive = s.alive) (hrem : s'.removed = s.removed)
    (hw : ∀ t r, e = (.wait t, .returned r) → f.state = .done ∧ f.result = r)
    (hu : ∀ o, e = (.unregister, o) → f.state ≠ .unresolved) : Held (tr ++ [e]) s' f := by
  refine ⟨hown.trans h.owner, ?_, htyped, ?_, ?_, ?_, ?_, ?_,
    fun ha hst => (h.done (halive ▸ ha) hst).append _,
    fun hst => (h.unregistered hst).append _, fun ha => h.dead (halive ▸ ha)⟩
  · obtain ⟨n, hn, hid⟩ := h.issued
    exact ⟨n, lt_of_lt_of_le hn hreg, hid⟩
  · intro hst
    obtain ⟨hp, ha⟩ := hpending hst
    exact ⟨hp, hrem.trans (h.pending hst).2.1, ha⟩
  · intro hst
    exact ⟨hgone hst, hrem.trans (h.gone hst).2⟩
  · intro hst
    rw [hvalue hst]
    exact h.value hst
  · intro t r hm
    rcases List.mem_append.mp hm with hm | hm
    · exact h.waited t r hm
    · exact hw t r (List.mem_singleton.mp hm).symm
  · intro o hm
    rcases List.mem_append.mp hm with hm | hm
    · exact h.dropped o hm
    · exact hu o (List.mem_singleton.mp hm).symm

/-- An event that changes neither the future nor the handler. -/
theorem Held.event (h : Held tr s f) (hlog : log (tr ++ [e]) = log tr)
    (hw : ∀ t r, e = (.wait t, .returned r) → f.state = .done ∧ f.result = r)
    (hu : ∀ o, e = (.unregister, o) → f.state ≠ .unresolved) : Held (tr ++ [e]) s f := by
  refine h.extend (by rw [hlog]) (by rw [hlog]) ?_ (fun _ => by rw [hlog]) ?_
    (fun hst => (h.gone hst).1) rfl rfl hw hu
  · rw [hlog]
    exact h.typed
  · intro hst
    rw [hlog]
    exact ⟨(h.pending hst).1, (h.pending hst).2.2⟩

/-- The event that resolves the future, or unregisters it. -/
theorem Held.resolve (h : Held tr s f) (hlog : log (tr ++ [e]) = log tr)
    (hst : f.state = .unresolved) (hst' : f'.state ≠ .unresolved) (hid : f'.request = f.request)
    (hkind : f'.kind = f.kind) (hreq : s'.handler.requests f'.request = none)
    (hrem : s'.removed = s.removed + leaves f' s.handler s'.handler)
    (hvalue : f'.state = .done → ∃ v, (log tr).served = some v ∧ f'.result = some v)
    (hw : ∀ t r, e = (.wait t, .returned r) → f'.state = .done ∧ f'.result = r)
    (hdone : s'.alive = true → f'.state = .done → Returned [e])
    (hdrop : f'.state = .unregistered → Unregistered [e]) :
    Held (tr ++ [e]) s' f' := by
  obtain ⟨-, hzero, ha⟩ := h.pending hst
  obtain ⟨q, hq⟩ := Agrees.present ha
  refine ⟨?_, ?_, ?_, fun he => absurd he hst', fun _ => ⟨hreq, ?_⟩, ?_, ?_, fun _ _ => hst',
    ?_, ?_, fun _ => hst'⟩
  · rw [hlog, hid, hkind]
    exact h.owner
  · rw [hlog, hid]
    exact h.issued
  · rw [hlog, hkind]
    exact h.typed
  · rw [hrem, hzero, leaves_gone (hid ▸ hq) hreq]
  · rw [hlog]
    exact hvalue
  · intro t r hm
    rcases List.mem_append.mp hm with hm | hm
    · -- no wait has returned while the future was unresolved
      have := (h.waited t r hm).1
      rw [hst] at this
      cases this
    · exact hw t r (List.mem_singleton.mp hm).symm
  · intro ha hd
    obtain ⟨t, r, hm⟩ := hdone ha hd
    exact ⟨t, r, List.mem_append_right _ hm⟩
  · intro hd
    obtain ⟨o, hm⟩ := hdrop hd
    exact ⟨o, List.mem_append_right _ hm⟩

/-! ### The invariant along the operations on other requests -/

/-- The identifiers of later registrations are others. -/
theorem Inv.fresh (hi : Inv tr s) (hf : s.impl = some f) :
    (s.handler.requestID + 1) % maxUint32 ≠ f.request := by
  obtain ⟨n, hn, hid⟩ := (hi.held f hf).issued
  rw [hi.counter, hid, Nat.mod_add_mod]
  intro he
  have hlt : (log tr).registrations < maxUint32 := hi.few
  have heq := identifier_inj hlt (hn.trans hlt) he
  omega

@[simp] theorem add_owner (l : Log) (op : Op) (x : Output) :
    (l.add (.handler op, x)).owner = l.owner := by
  cases op with
  | serveRequest j v =>
      rw [Log.add]
      split <;> rfl
  | _ => rfl

theorem add_registrations (l : Log) (x : Output) (hop : ∀ data, op ≠ .registerRequest data) :
    (l.add (.handler op, x)).registrations = l.registrations := by
  cases op with
  | registerRequest data => exact absurd rfl (hop data)
  | serveRequest j v =>
      rw [Log.add]
      split <;> rfl
  | _ => rfl

theorem registrations_le_add (l : Log) (op : Op) (x : Output) :
    l.registrations ≤ (l.add (.handler op, x)).registrations := by
  cases op with
  | registerRequest data => exact Nat.le_succ _
  | serveRequest j v => exact (add_registrations l x (by simp)).ge
  | _ => exact le_rfl

theorem add_served (l : Log) (x : Output)
    (hop : ∀ j v, op = .serveRequest j v → l.owner.map Prod.fst ≠ some j) :
    (l.add (.handler op, x)).served = l.served := by
  cases op with
  | serveRequest j v => rw [Log.add, if_neg (hop j v rfl)]
  | _ => rfl

theorem serveRequest_absent {v : Result} (h0 : h.requests id = none) : h.serveRequest id v = h := by
  simp only [Handler.serveRequest, h0]

/-- The future's request is served. -/
theorem serve_agrees {v : Result} (hp : Pool h) (ha : Agrees h id .pending) :
    Pool (h.serveRequest id v) ∧ Agrees (h.serveRequest id v) id (.served v) ∧
      (h.serveRequest id v).requests id = h.requests id := by
  obtain ⟨r, hr, -⟩ := ha
  have hs : h.serveRequest id v = h.setRecord r ⟨false, (h.records r).data, some v⟩ := by
    rw [← complete_eq, Handler.serveRequest, hr]
  rw [hs]
  exact ⟨hp.setRecord (hp.apart id r hr) _, ⟨r, hr, by simp, by simp⟩, rfl⟩

theorem setHandler_removed (hf : s.impl = some f)
    (hr : h'.requests f.request = s.handler.requests f.request) :
    (s.setHandler h').removed = s.removed := by
  simp only [State.setHandler, hf, leaves_same hr, Nat.add_zero]

/-- The future's own request is served, or another one is operated on. -/
theorem proper_cases (hh : Held tr s f) (hC : Proper tr (.handler op)) :
    (∃ v, op = .serveRequest f.request v ∧ (log tr).served = none ∧ v.kind = f.kind) ∨
      Spares f.request op := by
  cases op with
  | serveRequest j v =>
      by_cases hj : j = f.request
      · subst hj
        exact Or.inl ⟨v, rfl, hC f.kind hh.owner⟩
      · exact Or.inr hj
  | waitRequest j k t =>
      refine Or.inr ?_
      rintro rfl
      exact hC (by rw [hh.owner]; rfl)
  | unregisterRequest j => exact hC.elim
  | registerRequest data => exact Or.inr trivial
  | isRequestReady j => exact Or.inr trivial

theorem Inv.held_handler (hi : Inv tr s) (hC : Proper tr (.handler op))
    (hs : handler.step s.handler op = some (o, h')) (hf : s.impl = some f) :
    Held (tr ++ [(.handler op, .handler o)]) (s.setHandler h') f := by
  have hh := hi.held f hf
  -- it remains to say what was served, and what the handler has at the identifier
  have key : ∀ served : Option Result,
      ((log tr).add (.handler op, .handler o)).served = served →
      (∀ v, served = some v → v.kind = f.kind) →
      (f.state = .done → served = (log tr).served) →
      (f.state = .unresolved → Pool h' ∧ Agrees h' f.request (asked served)) →
      h'.requests f.request = s.handler.requests f.request →
      Held (tr ++ [(.handler op, .handler o)]) (s.setHandler h') f := by
    rintro served rfl htyped hvalue hpending hsame
    rw [← log_snoc] at htyped hvalue hpending
    refine hh.extend ?_ ?_ htyped hvalue hpending (fun hst => hsame.trans (hh.gone hst).1) rfl
      (setHandler_removed hf hsame) ?_ ?_
    · rw [log_snoc, add_owner]
    · rw [log_snoc]
      exact registrations_le_add _ _ _
    · intro t r he
      cases congrArg Prod.fst he
    · intro x he
      cases congrArg Prod.fst he
  rcases proper_cases hh hC with ⟨v, rfl, hnone, hkind⟩ | hsp
  · cases hs
    refine key (some v) ?_ ?_ ?_ ?_ ?_
    · rw [Log.add, if_pos (by rw [hh.owner]; rfl)]
    · intro w hw
      rw [← Option.some.inj hw, hkind]
    · -- a future that has its value was served before
      intro hst
      obtain ⟨w, hw, -⟩ := hh.value hst
      rw [hnone] at hw
      cases hw
    · intro hst
      obtain ⟨hp, -, ha⟩ := hh.pending hst
      rw [hnone] at ha
      exact ⟨(serve_agrees hp ha).1, (serve_agrees hp ha).2.1⟩
    · by_cases hst : f.state = .unresolved
      · obtain ⟨hp, -, ha⟩ := hh.pending hst
        rw [hnone] at ha
        exact (serve_agrees hp ha).2.2
      · rw [serveRequest_absent (hh.gone hst).1]
  · have hnew : ∀ data, op = .registerRequest data →
        (s.handler.requestID + 1) % maxUint32 ≠ f.request := fun _ _ => hi.fresh hf
    refine key (log tr).served ?_ hh.typed (fun _ => rfl) ?_ (step_requests hs hsp hnew)
    · refine add_served _ _ ?_
      rintro j v rfl he
      rw [hh.owner] at he
      exact hsp (Option.some.inj he).symm
    · intro hst
      obtain ⟨hp, -, ha⟩ := hh.pending hst
      exact ⟨step_pool hp hs hsp.not_unregister, step_agrees hp ha hs hsp hnew⟩

theorem Inv.idle_handler (hi : Inv tr s) (hop : ∀ j, op ≠ .unregisterRequest j)
    (hs : handler.step s.handler op = some (o, h')) (hf : s.impl = none) :
    Idle (tr ++ [(.handler op, .handler o)]) (s.setHandler h') := by
  have h := hi.idle hf
  refine ⟨step_pool h.pool hs hop, h.alive, ?_, ?_, ?_, ?_⟩
  · simp only [State.setHandler, hf]
    exact h.removed
  · rw [log_snoc, add_owner]
    exact h.owner
  · rw [log_snoc, add_served _ _ (by simp [h.owner])]
    exact h.served
  · intro e he
    rcases List.mem_append.mp he with he | he
    · exact h.quiet e he
    · exact ⟨op, o, List.mem_singleton.mp he⟩

theorem Inv.handler (hi : Inv tr s) (hC : Proper tr (.handler op))
    (hs : handler.step s.handler op = some (o, h')) :
    Inv (tr ++ [(.handler op, .handler o)]) (s.setHandler h') := by
  have hop : ∀ j, op ≠ .unregisterRequest j := by
    rintro j rfl
    exact hC
  refine ⟨?_, ?_, fun hf => hi.idle_handler hop hs hf, fun f hf => hi.held_handler hC hs hf⟩
  · rcases step_requestID hs hop with ⟨⟨data, rfl⟩, -⟩ | ⟨hr, -⟩
    · rw [log_snoc]
      exact hC
    · rw [log_snoc, add_registrations _ _ hr]
      exact hi.few
  · rcases step_requestID hs hop with ⟨⟨data, rfl⟩, hid⟩ | ⟨hr, hid⟩
    · rw [log_snoc]
      exact hid.trans (by rw [hi.counter, Nat.mod_add_mod]; rfl)
    · rw [log_snoc, add_registrations _ _ hr]
      exact hid.trans hi.counter

/-! ### The invariant along every step -/

theorem Inv.create {kind : Kind} {data : Nat} (hi : Inv tr s)
    (hC : (log tr).registrations + 1 < maxUint32) (hf : s.impl = none) :
    Inv (tr ++ [(.create kind data, .created (s.handler.registerRequest data).1)])
      { s with
        handler := (s.handler.registerRequest data).2
        impl := some (Impl.new kind (s.handler.registerRequest data).1) } := by
  have hidle := hi.idle hf
  obtain ⟨hid, hcount⟩ := registerRequest_id s.handler data
  have hnext : (s.handler.requestID + 1) % maxUint32
      = ((log tr).registrations + 2) % maxUint32 := by
    rw [hi.counter, Nat.mod_add_mod]
  obtain ⟨r, hr⟩ := exists_registered hidle.pool data
  have hquiet : ∀ a b, (∀ op, a ≠ .handler op) → (∀ k d, a ≠ .create k d) →
      (a, b) ∉ tr ++ [(.create kind data, .created (s.handler.registerRequest data).1)] := by
    intro a b ha hc hm
    rcases List.mem_append.mp hm with hm | hm
    · obtain ⟨op, x, he⟩ := hidle.quiet _ hm
      exact ha op (congrArg Prod.fst he)
    · exact hc kind data (congrArg Prod.fst (List.mem_singleton.mp hm))
  refine ⟨?_, ?_, fun h => (by cases h), ?_⟩
  · rw [log_snoc]
    exact hC
  · rw [log_snoc]
    exact hcount.trans hnext
  · intro f hf'
    cases hf'
    refine ⟨?_, ?_, ?_, ?_, fun h => absurd rfl h, fun h => (by cases h), ?_, ?_,
      fun _ h => (by cases h), fun h => (by cases h), ?_⟩
    · rw [log_snoc]
      rfl
    · rw [log_snoc]
      exact ⟨(log tr).registrations, Nat.lt_succ_self _, hid.trans hnext⟩
    · rw [log_snoc]
      intro v hv
      have := hidle.served.symm.trans hv
      cases this
    · intro _
      rw [log_snoc]
      refine ⟨hidle.pool.register hr, hidle.removed, ?_⟩
      change Agrees _ _ (asked (log tr).served)
      rw [hidle.served]
      exact ⟨r, by rw [hr.requests]; exact Function.update_self _ _ _, hr.locked⟩
    · exact fun t x hm => absurd hm (hquiet _ _ (by simp) (by simp))
    · exact fun x hm => absurd hm (hquiet _ _ (by simp) (by simp))
    · intro ha
      have := hidle.alive.symm.trans ha
      cases this

/-- A wait of the future changes nothing, or takes the value that was served. -/
theorem wait_cases {timeout : Nat} {b : Output} (hh : Held tr s f)
    (hw : f.wait s.handler timeout = some (b, f', h')) :
    (f' = f ∧ h' = s.handler ∧ ∀ r, b = .returned r → f.state = .done ∧ f.result = r) ∨
      ∃ v, f.state = .unresolved ∧ (log tr).served = some v ∧ b = .returned (some v) ∧
        f' = { f with result := some v, state := .done } ∧ h'.requests f.request = none ∧
        h'.requestID = s.handler.requestID := by
  cases hst : f.state with
  | unregistered =>
      simp only [Impl.wait, hst, Option.some.injEq, Prod.mk.injEq] at hw
      obtain ⟨rfl, rfl, rfl⟩ := hw
      exact Or.inl ⟨rfl, rfl, by simp⟩
  | done =>
      simp only [Impl.wait, hst, Option.some.injEq, Prod.mk.injEq] at hw
      obtain ⟨rfl, rfl, rfl⟩ := hw
      refine Or.inl ⟨rfl, rfl, fun r hr => ⟨rfl, ?_⟩⟩
      cases hr
      rfl
  | unresolved =>
      obtain ⟨-, -, ha⟩ := hh.pending hst
      cases hv : (log tr).served with
      | none =>
          rw [hv] at ha
          rw [wait_pending hst ha] at hw
          split at hw
          · cases hw
          · cases hw
            exact Or.inl ⟨rfl, rfl, by simp⟩
      | some v =>
          rw [hv] at ha
          obtain ⟨h1, hw1, hreq, hid⟩ := wait_served hst ha (hh.typed v hv) timeout
          rw [hw1] at hw
          cases hw
          exact Or.inr ⟨v, rfl, rfl, rfl, rfl, hreq, hid⟩

theorem Inv.call (hi : Inv tr s) (hlog : log (tr ++ [e]) = log tr)
    (hid : s'.handler.requestID = s.handler.requestID) (hf : s'.impl = some f')
    (hh : Held (tr ++ [e]) s' f') : Inv (tr ++ [e]) s' := by
  refine ⟨?_, ?_, ?_, ?_⟩
  · rw [hlog]
    exact hi.few
  · rw [hlog, hid]
    exact hi.counter
  · intro h
    rw [hf] at h
    cases h
  · intro f h
    rw [hf] at h
    cases h
    exact hh

theorem Held.die (h : Held tr s f) (hst : f.state ≠ .unresolved) :
    Held tr { s with alive := false } f :=
  ⟨h.owner, h.issued, h.typed, h.pending, h.gone, h.value, h.waited, h.dropped,
    fun ha => (by cases ha), h.unregistered, fun _ => hst⟩

theorem Inv.wait {timeout : Nat} {b : Output} (hi : Inv tr s)
    (hs : (s.call fun f h => f.wait h timeout) = some (b, s')) :
    Inv (tr ++ [(.wait timeout, b)]) s' := by
  obtain ⟨f, f', h', hf, ha, hg, rfl⟩ := call_inv hs
  have hh := hi.held f hf
  have hlog : log (tr ++ [(.wait timeout, b)]) = log tr := log_snoc _ _
  rcases wait_cases hh hg with ⟨rfl, rfl, hret⟩ | ⟨v, hst, hv, rfl, rfl, hreq, hid⟩
  · rw [setHandler_self hf]
    refine hi.call hlog rfl hf (hh.event hlog ?_ ?_)
    · intro t r he
      exact hret r (congrArg Prod.snd he)
    · intro x he
      cases congrArg Prod.fst he
  · refine hi.call hlog hid rfl (hh.resolve hlog hst (by simp) rfl rfl hreq rfl ?_ ?_ ?_
      fun h => (by cases h))
    · exact fun _ => ⟨v, hv, rfl⟩
    · intro t r he
      cases he
      exact ⟨rfl, rfl⟩
    · exact fun _ _ => ⟨timeout, some v, List.mem_singleton_self _⟩

theorem Inv.isReady {b : Output} (hi : Inv tr s)
    (hs : (s.call fun f h => some (f.isReady h)) = some (b, s')) :
    Inv (tr ++ [(.isReady, b)]) s' := by
  obtain ⟨f, f', h', hf, ha, hg, rfl⟩ := call_inv hs
  have hsame : f' = f ∧ h' = s.handler := by
    cases hst : f.state with
    | unresolved =>
        simp only [Impl.isReady, hst, isRequestReady_eq, Option.some.injEq, Prod.mk.injEq] at hg
        exact ⟨hg.2.1.symm, hg.2.2.symm⟩
    | unregistered | done =>
        simp only [Impl.isReady, hst, Option.some.injEq, Prod.mk.injEq] at hg
        exact ⟨hg.2.1.symm, hg.2.2.symm⟩
  obtain ⟨rfl, rfl⟩ := hsame
  have hlog : log (tr ++ [(.isReady, b)]) = log tr := log_snoc _ _
  rw [setHandler_self hf]
  refine hi.call hlog rfl hf ((hi.held _ hf).event hlog ?_ ?_)
  · intro t r he
    cases congrArg Prod.fst he
  · intro x he
    cases congrArg Prod.fst he

theorem Inv.unregister {b : Output} (hi : Inv tr s)
    (hs : (s.call fun f h => some (f.unregister h)) = some (b, s')) :
    Inv (tr ++ [(.unregister, b)]) s' := by
  obtain ⟨f, f', h', hf, ha, hg, rfl⟩ := call_inv hs
  have hh := hi.held f hf
  have hlog : log (tr ++ [(.unregister, b)]) = log tr := log_snoc _ _
  by_cases hst : f.state = .unresolved
  · simp only [Impl.unregister, hst, Option.some.injEq, Prod.mk.injEq] at hg
    obtain ⟨rfl, rfl, rfl⟩ := hg
    refine hi.call hlog (unregisterRequest_requestID _ _) rfl
      (hh.resolve hlog hst (by simp) rfl rfl ?_ rfl (fun h => by cases h) ?_
        (fun _ h => by cases h) ?_)
    · change (s.handler.unregisterRequest f.request).requests f.request = none
      rw [unregisterRequest_requests, Function.update_self]
    · intro t r he
      cases congrArg Prod.fst he
    · exact fun _ => ⟨.done, List.mem_singleton_self _⟩
  · have hsame : f.unregister s.handler = (.done, f, s.handler) := by
      unfold Impl.unregister
      split
      · exact absurd ‹_› hst
      · rfl
    simp only [hsame, Option.some.injEq, Prod.mk.injEq] at hg
    obtain ⟨rfl, rfl, rfl⟩ := hg
    rw [setHandler_self hf]
    refine hi.call hlog rfl hf (hh.event hlog ?_ fun _ _ => hst)
    intro t r he
    cases congrArg Prod.fst he

theorem destruct_resolved (hst : f.state ≠ .unresolved) :
    f.destruct h = some (.destructed false, f, h) := by
  unfold Impl.destruct
  split
  · exact absurd ‹_› hst
  · rfl

theorem Inv.destruct {b : Output} (hi : Inv tr s)
    (hs : (s.call fun f h => f.destruct h) = some (b, s')) :
    Inv (tr ++ [(.destruct, b)]) { s' with alive := false } := by
  obtain ⟨f, f', h', hf, ha, hg, rfl⟩ := call_inv hs
  have hh := hi.held f hf
  have hlog : log (tr ++ [(.destruct, b)]) = log tr := log_snoc _ _
  by_cases hst : f.state = .unresolved
  · simp only [Impl.destruct, hst] at hg
    split at hg
    · rename_i r f1 h1 hw
      cases hg
      rcases wait_cases hh hw with ⟨rfl, rfl, hret⟩ | ⟨v, -, hv, -, rfl, hreq, hid⟩
      · rw [(hret r rfl).1] at hst
        cases hst
      · refine hi.call hlog hid rfl (hh.resolve hlog hst (by simp) rfl rfl hreq rfl ?_ ?_ ?_
          fun h => (by cases h))
        · exact fun _ => ⟨v, hv, rfl⟩
        · intro t r he
          cases congrArg Prod.fst he
        · intro h
          cases h
    · cases hg
  · rw [destruct_resolved hst] at hg
    cases hg
    rw [setHandler_self hf]
    refine hi.call hlog rfl hf (Held.die (hh.event hlog ?_ ?_) hst)
    · intro t r he
      cases congrArg Prod.fst he
    · intro x he
      cases congrArg Prod.fst he

theorem inv_step {a : Action} {b : Output} (hi : Inv tr s) (hC : Proper tr a)
    (hs : request.step s a = some (b, s')) : Inv (tr ++ [(a, b)]) s' := by
  cases a with
  | handler op =>
      obtain ⟨⟨o, h'⟩, hstep, he⟩ := Option.map_eq_some_iff.mp hs
      cases he
      exact hi.handler hC hstep
  | create kind data =>
      cases hf : s.impl with
      | some f => simp [request, hf] at hs
      | none =>
          simp only [request, hf, Option.some.injEq, Prod.mk.injEq] at hs
          obtain ⟨rfl, rfl⟩ := hs
          exact hi.create hC hf
  | wait timeout => exact hi.wait hs
  | isReady => exact hi.isReady hs
  | unregister => exact hi.unregister hs
  | destruct =>
      obtain ⟨⟨b', s1⟩, hs1, he⟩ := Option.map_eq_some_iff.mp hs
      cases he
      exact hi.destruct hs1

theorem inv_of_trace (h : request.Trace tr s) (hC : Respects Proper tr) : Inv tr s :=
  h.inv Inv inv_init (fun _ _ _ _ _ _ _ hC hi hs => inv_step hi hC hs) hC

/-! ## The future is assigned once -/

theorem Inv.exists_held (hi : Inv tr s)
    (h : Returned tr ∨ Unregistered tr ∨ (log tr).owner ≠ none) :
    ∃ f, s.impl = some f ∧ Held tr s f := by
  cases hf : s.impl with
  | some f => exact ⟨f, rfl, hi.held f hf⟩
  | none =>
      have hidle := hi.idle hf
      rcases h with ⟨t, r, hm⟩ | ⟨x, hm⟩ | hown
      · obtain ⟨op, x, he⟩ := hidle.quiet _ hm
        cases congrArg Prod.fst he
      · obtain ⟨op, x, he⟩ := hidle.quiet _ hm
        cases congrArg Prod.fst he
      · exact absurd hidle.owner hown

theorem Held.unresolved_iff (hh : Held tr s f) (ha : s.alive = true) :
    f.state = .unresolved ↔ ¬ Returned tr ∧ ¬ Unregistered tr := by
  constructor
  · intro hst
    refine ⟨?_, ?_⟩
    · rintro ⟨t, r, hm⟩
      have := (hh.waited t r hm).1
      rw [hst] at this
      cases this
    · rintro ⟨x, hm⟩
      exact hh.dropped x hm hst
  · rintro ⟨hret, hunr⟩
    cases hst : f.state with
    | unresolved => rfl
    | done => exact absurd (hh.done ha hst) hret
    | unregistered => exact absurd (hh.unregistered hst) hunr

/-- A call that leaves the future and the handler alone. -/
theorem call_same {g : Impl → Handler → Option (Output × Impl × Handler)} {b : Output}
    (hf : s.impl = some f) (ha : s.alive = true) (hg : g f s.handler = some (b, f, s.handler)) :
    s.call g = some (b, s) := by
  rw [call_eq hf ha, hg, Option.map_some, setHandler_self hf]

theorem call_keeps (g : Impl → Handler → Option (Output × Impl × Handler)) {b : Output}
    (hf : s.impl = some f) (hs : s.call g = some (b, s'))
    (hg : ∀ x f' h', g f s.handler = some (x, f', h') → f' = f) : s'.impl = some f := by
  obtain ⟨f1, f', h', hf1, -, hg1, rfl⟩ := call_inv hs
  rw [hf, Option.some.injEq] at hf1
  subst hf1
  exact congrArg some (hg _ _ _ hg1)

/-- An unregistered future stays as it is. -/
theorem unregistered_step {a : Action} {b : Output} (hst : f.state = .unregistered)
    (hf : s.impl = some f) (hs : request.step s a = some (b, s')) : s'.impl = some f := by
  cases a with
  | handler op =>
      obtain ⟨⟨x, h'⟩, -, he⟩ := Option.map_eq_some_iff.mp hs
      cases he
      exact hf
  | create kind data =>
      simp only [request, hf] at hs
      cases hs
  | wait timeout =>
      refine call_keeps (fun f h => f.wait h timeout) hf hs fun x f' h' hg => ?_
      simp only [Impl.wait, hst, Option.some.injEq, Prod.mk.injEq] at hg
      exact hg.2.1.symm
  | isReady =>
      refine call_keeps (fun f h => some (f.isReady h)) hf hs fun x f' h' hg => ?_
      simp only [Impl.isReady, hst, Option.some.injEq, Prod.mk.injEq] at hg
      exact hg.2.1.symm
  | unregister =>
      refine call_keeps (fun f h => some (f.unregister h)) hf hs fun x f' h' hg => ?_
      simp only [Impl.unregister, hst, Option.some.injEq, Prod.mk.injEq] at hg
      exact hg.2.1.symm
  | destruct =>
      obtain ⟨⟨x, t⟩, ht, he⟩ := Option.map_eq_some_iff.mp hs
      have hkept : t.impl = some f := by
        refine call_keeps (fun f h => f.destruct h) hf ht fun x f' h' hg => ?_
        simp only [Impl.destruct, hst, Option.some.injEq, Prod.mk.injEq] at hg
        exact hg.2.1.symm
      cases he
      exact hkept

/-- From an `unregister` before any wait has returned, the future is unregistered. -/
theorem unregistered_of_trace {pre post : History} {b : Output}
    (h : request.Trace (pre ++ (.unregister, b) :: post) s)
    (hC : Respects Proper (pre ++ (.unregister, b) :: post)) (hpre : ¬ Returned pre) :
    ∃ f, s.impl = some f ∧ f.state = .unregistered := by
  obtain ⟨s0, s1, h0, hs⟩ := h.split
  have hheld := (inv_of_trace h0 hC.left).held
  obtain ⟨f, f', h', hf, ha, hg, rfl⟩ := call_inv (g := fun f h => some (f.unregister h)) hs
  have hst : f'.state = .unregistered := by
    cases hst : f.state with
    | unresolved =>
        simp only [Impl.unregister, hst, Option.some.injEq, Prod.mk.injEq] at hg
        rw [← hg.2.1]
    | unregistered =>
        simp only [Impl.unregister, hst, Option.some.injEq, Prod.mk.injEq] at hg
        rw [← hg.2.1, hst]
    | done => exact absurd ((hheld f hf).done ha hst) hpre
  rw [List.append_cons] at h
  have hkept : s.impl = some f' := (h0.snoc hs).after (fun _ s => s.impl = some f') h rfl
    fun _ _ _ _ _ hf hs => unregistered_step hst hf hs
  exact ⟨f', hkept, hst⟩

/-- What the future answers after a history, and what it does to the handler. -/
structure SingleAssignment (tr : History) (s : State) : Prop where
  /-- The waits that returned have returned the value that the request was served with. -/
  value : ∀ t r, (.wait t, .returned r) ∈ tr → ∃ v, (log tr).served = some v ∧ r = some v
  /-- Afterwards every wait returns it again, the future is ready, and `unregister` does nothing. -/
  done : s.alive = true → ∀ t r, (.wait t, .returned r) ∈ tr →
    (∀ t', request.step s (.wait t') = some (.returned r, s)) ∧
      request.step s .isReady = some (.ready true, s) ∧
      request.step s .unregister = some (.done, s)
  /-- A wait that times out changes neither the future nor the handler. -/
  timeout : ∀ t s', request.step s (.wait t) = some (.futureTimeout, s') → s' = s
  /-- A future that was neither waited for nor unregistered times out until it is served, and
  then every wait succeeds; its destructor waits. -/
  unresolved : s.alive = true → (log tr).owner ≠ none → ¬ Returned tr → ¬ Unregistered tr →
    ((log tr).served = none →
      (∀ t, request.step s (.wait t)
        = if t = timeoutIndefinite then none else some (.futureTimeout, s)) ∧
      request.step s .destruct = none) ∧
    ∀ v, (log tr).served = some v →
      (∀ t, ∃ s', request.step s (.wait t) = some (.returned (some v), s')) ∧
      ∃ s', request.step s .destruct = some (.destructed true, s')
  /-- After an `unregister` before any wait has returned, the future is not ready and every wait
  throws. -/
  unregistered : s.alive = true → ∀ pre b post, tr = pre ++ (.unregister, b) :: post →
    ¬ Returned pre → request.step s .isReady = some (.ready false, s) ∧
      ∀ t, request.step s (.wait t) = some (.unregisteredRequest, s)
  /-- The destructor of a future that was waited for or unregistered does not wait. -/
  resolved : s.alive = true → Returned tr ∨ Unregistered tr →
    request.step s .destruct = some (.destructed false, { s with alive := false })
  /-- The identifier leaves the handler at most once, and has left it after the destructor. -/
  removed : s.removed ≤ 1 ∧ (s.alive = false → s.removed = 1)

theorem answers_done (hf : s.impl = some f) (ha : s.alive = true) (hst : f.state = .done) :
    (∀ t', request.step s (.wait t') = some (.returned f.result, s)) ∧
      request.step s .isReady = some (.ready true, s) ∧
      request.step s .unregister = some (.done, s) := by
  refine ⟨fun t' => ?_, ?_, ?_⟩
  · exact call_same (g := fun f h => f.wait h t') hf ha (by simp only [Impl.wait, hst])
  · exact call_same (g := fun f h => some (f.isReady h)) hf ha (by simp only [Impl.isReady, hst])
  · exact call_same (g := fun f h => some (f.unregister h)) hf ha
      (by simp only [Impl.unregister, hst])

theorem destruct_unresolved (hst : f.state = .unresolved) :
    f.destruct h = match f.wait h timeoutIndefinite with
      | some (.returned _, f, h) => some (.destructed true, f, h)
      | _ => none := by
  simp only [Impl.destruct, hst]

theorem step_destruct (hf : s.impl = some f) (ha : s.alive = true) :
    request.step s .destruct = (f.destruct s.handler).map fun r =>
      (r.1, { { s with impl := some r.2.1 }.setHandler r.2.2 with alive := false }) := by
  change (s.call _).map _ = _
  rw [call_eq hf ha, Option.map_map]
  rfl

/-- A future that is not served yet times out, and its destructor blocks. -/
theorem Held.answers_pending (hh : Held tr s f) (hf : s.impl = some f) (ha : s.alive = true)
    (hst : f.state = .unresolved) (hnone : (log tr).served = none) :
    (∀ t, request.step s (.wait t)
        = if t = timeoutIndefinite then none else some (.futureTimeout, s)) ∧
      request.step s .destruct = none := by
  obtain ⟨-, -, hagree⟩ := hh.pending hst
  rw [hnone] at hagree
  have hw := wait_pending hst hagree
  refine ⟨fun t => ?_, ?_⟩
  · by_cases ht : t = timeoutIndefinite
    · change (s.call fun f h => f.wait h t) = _
      rw [call_eq hf ha, hw, if_pos ht, if_pos ht, Option.map_none]
    · rw [if_neg ht]
      exact call_same (g := fun f h => f.wait h t) hf ha (by rw [hw, if_neg ht])
  · rw [step_destruct hf ha, destruct_unresolved hst, hw, if_pos rfl, Option.map_none]

theorem Held.answers_served {v : Result} (hh : Held tr s f) (hf : s.impl = some f)
    (ha : s.alive = true) (hst : f.state = .unresolved) (hv : (log tr).served = some v) :
    (∀ t, ∃ s', request.step s (.wait t) = some (.returned (some v), s')) ∧
      ∃ s', request.step s .destruct = some (.destructed true, s') := by
  obtain ⟨-, -, hagree⟩ := hh.pending hst
  rw [hv] at hagree
  have hw := wait_served hst hagree (hh.typed v hv)
  refine ⟨fun t => ?_, ?_⟩
  · obtain ⟨h', hw, -⟩ := hw t
    change ∃ s', (s.call fun f h => f.wait h t) = _
    rw [call_eq hf ha, hw]
    exact ⟨_, rfl⟩
  · obtain ⟨h', hw, -⟩ := hw timeoutIndefinite
    rw [step_destruct hf ha, destruct_unresolved hst, hw]
    exact ⟨_, rfl⟩

theorem Inv.removed_once (hi : Inv tr s) :
    s.removed ≤ 1 ∧ (s.alive = false → s.removed = 1) := by
  cases hf : s.impl with
  | none =>
      have hidle := hi.idle hf
      rw [hidle.removed, hidle.alive]
      simp
  | some f =>
      have hh := hi.held f hf
      by_cases hst : f.state = .unresolved
      · refine ⟨?_, fun ha => absurd hst (hh.dead ha)⟩
        rw [(hh.pending hst).2.1]
        exact Nat.zero_le 1
      · exact ⟨(hh.gone hst).2.le, fun _ => (hh.gone hst).2⟩

/-- **The future is assigned once.** Fewer than `LB_MAX_UINT32` requests are registered, the
future's request is served at most once with a value of its type, and other requests come and go
without being unregistered: then what the future answers is as `SingleAssignment` says. -/
theorem future_single_assignment (h : request.Trace tr s) (hC : Respects Proper tr) :
    SingleAssignment tr s := by
  have hi := inv_of_trace h hC
  refine ⟨?_, ?_, ?_, ?_, ?_, ?_, hi.removed_once⟩
  · intro t r hm
    obtain ⟨f, hf, hh⟩ := hi.exists_held (Or.inl ⟨t, r, hm⟩)
    obtain ⟨hst, hr⟩ := hh.waited t r hm
    obtain ⟨v, hv, hres⟩ := hh.value hst
    exact ⟨v, hv, hr.symm.trans hres⟩
  · intro ha t r hm
    obtain ⟨f, hf, hh⟩ := hi.exists_held (Or.inl ⟨t, r, hm⟩)
    obtain ⟨hst, rfl⟩ := hh.waited t r hm
    exact answers_done hf ha hst
  · intro t s' hs
    obtain ⟨f, f', h', hf, -, hg, rfl⟩ := call_inv (g := fun f h => f.wait h t) hs
    rcases wait_cases (hi.held f hf) hg with ⟨rfl, rfl, -⟩ | ⟨v, -, -, hret, -⟩
    · exact setHandler_self hf
    · cases hret
  · intro ha hown hret hunr
    obtain ⟨f, hf, hh⟩ := hi.exists_held (Or.inr (Or.inr hown))
    have hst := (hh.unresolved_iff ha).mpr ⟨hret, hunr⟩
    exact ⟨hh.answers_pending hf ha hst, fun v hv => hh.answers_served hf ha hst hv⟩
  · rintro ha pre b post rfl hpre
    obtain ⟨f, hf, hst⟩ := unregistered_of_trace h hC hpre
    refine ⟨?_, fun t => ?_⟩
    · exact call_same (g := fun f h => some (f.isReady h)) hf ha
        (by simp only [Impl.isReady, hst])
    · exact call_same (g := fun f h => f.wait h t) hf ha (by simp only [Impl.wait, hst])
  · intro ha hres
    obtain ⟨f, hf, hh⟩ := hi.exists_held (hres.imp_right Or.inl)
    have hst : f.state ≠ .unresolved := by
      intro hst
      obtain ⟨hret, hunr⟩ := (hh.unresolved_iff ha).mp hst
      exact hres.elim hret hunr
    rw [step_destruct hf ha, destruct_resolved hst, Option.map_some, setHandler_self hf]

/-- The future times out, another request is served and waited for, then the future is. Its record
is that of the request 4 when it is waited for again. -/
def futureHistory : History :=
  [(.create .uint32 0, .created 2), (.handler (.registerRequest 0), .handler (.registered 3)),
    (.wait 10, .futureTimeout),
    (.handler (.serveRequest 3 (.rBool true)), .handler .done),
    (.handler (.waitRequest 3 .bool 10), .handler (.waited true (some (.rBool true)))),
    (.handler (.serveRequest 2 (.rUint32 7)), .handler .done), (.isReady, .ready true),
    (.wait 10, .returned (some (.rUint32 7))),
    (.handler (.registerRequest 0), .handler (.registered 4)),
    (.wait 0, .returned (some (.rUint32 7))), (.unregister, .done)]

theorem future_single_assignment_reused :
    ∃ s, request.Trace futureHistory s ∧
      (∀ t, request.step s (.wait t) = some (.returned (some (.rUint32 7)), s)) ∧
      request.step s .isReady = some (.ready true, s) ∧
      request.step s .destruct = some (.destructed false, { s with alive := false }) := by
  have h : request.Trace futureHistory _ :=
    Machine.Trace.of_run (futureHistory.map Prod.fst) rfl
  have hC : Respects Proper futureHistory :=
    respects_of_checks
      (by simp [futureHistory, checks, Proper, log, Log.add, maxUint32, Result.kind])
  have hs := future_single_assignment h hC
  have hm : (.wait 10, .returned (some (.rUint32 7))) ∈ futureHistory := by simp [futureHistory]
  obtain ⟨hwait, hready, -⟩ := hs.done rfl 10 _ hm
  exact ⟨_, h, hwait, hready, hs.resolved rfl (Or.inl ⟨10, _, hm⟩)⟩

end Lunchbox.Request
