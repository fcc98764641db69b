import Lunchbox.Lib.Machine
import Lunchbox.RequestHandler.Pool

set_option autoImplicit false

/-! # A waiting and a serving thread

`waitRequest` and `serveRequest` use the record of their request outside the handler's lock.
Here they run step by step: a waiting thread registers, unregisters and waits for requests,
and a serving thread looks up the record of a request and completes it in a second step. What
the calls are for is a machine with one mailbox for each registration (`mailboxes`): a call of
`serveRequest` puts its value into the mailbox of the registration that it looked up, and
nothing else. As long as no record is given back to the pool under a call that has looked it
up (`Undisturbed`), the histories of the two threads are histories of the mailboxes.
-/

namespace Lunchbox.RequestHandler.Interleaving

open StateMachine

/-! ## The two threads -/

inductive Action
  | registerRequest (data : Nat)
  | unregisterRequest (id : RequestID)
  | isRequestReady (id : RequestID)
  /-- `waitRequest` up to the end of the lookup. -/
  | waitRequest (id : RequestID) (k : Kind) (timeout : Nat)
  /-- The next step of the wait. -/
  | waiter
  /-- `try_lock_for` gives up. -/
  | timeout
  /-- `serveRequest` up to the end of the lookup. -/
  | serveRequest (id : RequestID) (v : Result)
  /-- The rest of `serveRequest`. -/
  | server
  deriving DecidableEq

inductive Output
  | running
  | registered (id : RequestID)
  | done
  | waited (id : RequestID) (ok : Bool) (result : Option Result)
  | ready (b : Bool)
  deriving DecidableEq

/-- Where the waiting thread is; `ref` is the request that `waitRequest` has looked up. -/
inductive Waiter (ρ : Type)
  | idle
  | waiting (id : RequestID) (ref : ρ) (k : Kind) (limit : Nat)
  | locked (id : RequestID) (ref : ρ) (k : Kind)
  | copied (id : RequestID) (ref : ρ) (result : Option Result)

structure State where
  handler : Handler
  waiter : Waiter RecordPtr
  server : Option (RecordPtr × Result)

/-- `waitRequest` after the lookup: lock the record, copy the result, unregister the request. -/
def State.wait (s : State) : Option (Output × State) :=
  match s.waiter with
  | .idle => none
  | .waiting id r k _ =>
      match s.handler.tryLock r with
      | (true, h) => some (.running, { s with handler := h, waiter := .locked id r k })
      | (false, _) => none
  | .locked id r k =>
      some (.running,
        { s with waiter := .copied id r (k.read (s.handler.records r).result) })
  | .copied id _ x =>
      some (.waited id true x,
        { s with handler := s.handler.unregisterRequest id, waiter := .idle })

/-- The steps of both threads. A thread is inside one call at a time. -/
def State.step (s : State) : Action → Option (Output × State)
  | .registerRequest data =>
      match s.waiter with
      | .idle =>
          let (id, h) := s.handler.registerRequest data
          some (.registered id, { s with handler := h })
      | _ => none
  | .unregisterRequest id =>
      match s.waiter with
      | .idle => some (.done, { s with handler := s.handler.unregisterRequest id })
      | _ => none
  | .isRequestReady id =>
      match s.waiter with
      | .idle =>
          let (b, h) := s.handler.isRequestReady id
          some (.ready b, { s with handler := h })
      | _ => none
  | .waitRequest id k timeout =>
      match s.waiter with
      | .idle =>
          match s.handler.requests id with
          | none => some (.waited id false none, s)
          | some r => some (.running, { s with waiter := .waiting id r k timeout })
      | _ => none
  | .waiter => s.wait
  | .timeout =>
      match s.waiter with
      | .waiting id _ _ limit =>
          if limit = timeoutIndefinite then none
          else some (.waited id false none, { s with waiter := .idle })
      | _ => none
  | .serveRequest id v =>
      match s.server with
      | none =>
          match s.handler.requests id with
          | none => some (.done, s)
          | some r => some (.running, { s with server := some (r, v) })
      | some _ => none
  | .server =>
      match s.server with
      | none => none
      | some (r, v) => some (.done, { s with handler := s.handler.complete r v, server := none })

def threads : Machine State Action Output := ⟨⟨Handler.new, .idle, none⟩, State.step⟩

/-! ## Mailboxes -/

/-- A mailbox for each registration. `current id` is the registration that issued `id` last, as
long as it is registered; `call` is the registration that the serving thread has looked up. -/
structure Mailboxes where
  requestID : RequestID
  count : Nat
  current : RequestID → Option Nat
  answer : Nat → Option Result
  waiter : Waiter Nat
  call : Option (Nat × Result)

def Mailboxes.ready (m : Mailboxes) (id : RequestID) : Bool :=
  match m.current id with
  | none => false
  | some n => (m.answer n).isSome

def Mailboxes.wait (m : Mailboxes) : Option (Output × Mailboxes) :=
  match m.waiter with
  | .idle => none
  | .waiting id n k _ =>
      if (m.answer n).isSome then some (.running, { m with waiter := .locked id n k }) else none
  | .locked id n k => some (.running, { m with waiter := .copied id n (k.read (m.answer n)) })
  | .copied id _ x =>
      some (.waited id true x,
        { m with current := Function.update m.current id none, waiter := .idle })

def Mailboxes.step (m : Mailboxes) : Action → Option (Output × Mailboxes)
  | .registerRequest _ =>
      match m.waiter with
      | .idle =>
          let id := (m.requestID + 1) % maxUint32
          some (.registered id, { m with
            requestID := id
            count := m.count + 1
            current := Function.update m.current id (some m.count) })
      | _ => none
  | .unregisterRequest id =>
      match m.waiter with
      | .idle => some (.done, { m with current := Function.update m.current id none })
      | _ => none
  | .isRequestReady id =>
      match m.waiter with
      | .idle => some (.ready (m.ready id), m)
      | _ => none
  | .waitRequest id k timeout =>
      match m.waiter with
      | .idle =>
          match m.current id with
          | none => some (.waited id false none, m)
          | some n => some (.running, { m with waiter := .waiting id n k timeout })
      | _ => none
  | .waiter => m.wait
  | .timeout =>
      match m.waiter with
      | .waiting id _ _ limit =>
          if limit = timeoutIndefinite then none
          else some (.waited id false none, { m with waiter := .idle })
      | _ => none
  | .serveRequest id v =>
      match m.call with
      | none =>
          match m.current id with
          | none => some (.done, m)
          | some n => some (.running, { m with call := some (n, v) })
      | some _ => none
  | .server =>
      match m.call with
      | none => none
      | some (n, v) =>
          some (.done, { m with answer := Function.update m.answer n (some v), call := none })

def mailboxes : Machine Mailboxes Action Output :=
  ⟨⟨1, 0, fun _ => none, fun _ => none, .idle, none⟩, Mailboxes.step⟩

/-! ## Undisturbed calls -/

abbrev History := List (Action × Output)

def calledStep (id : RequestID) (b : Bool) : Action × Output → Bool
  | (.registerRequest _, .registered j) => if j = id then false else b
  | (.serveRequest j _, .running) => if j = id then true else b
  | (.unregisterRequest j, _) => if j = id then false else b
  | (.waiter, .waited j _ _) => if j = id then false else b
  | _ => b

/-- The request `id` is registered, and a call of `serveRequest` has looked it up. -/
def called (tr : History) (id : RequestID) : Bool := tr.foldl (calledStep id) false

@[simp] theorem called_snoc (tr : History) (e : Action × Output) (id : RequestID) :
    called (tr ++ [e]) id = calledStep id (called tr id) e := by
  simp [called]

/-- Once `serveRequest` has looked up a request, the request is not served again and not
unregistered. -/
def Undisturbed (tr : History) : Action → Prop
  | .serveRequest id _ => called tr id = false
  | .unregisterRequest id => called tr id = false
  | _ => True

/-! ## The simulation -/

/-- The waiting thread has locked the record. -/
def Waiter.holds (r : RecordPtr) : Waiter RecordPtr → Prop
  | .locked _ q _ => q = r
  | .copied _ q _ => q = r
  | _ => False

/-- A record agrees with the content of a mailbox. -/
structure Matches (x : Record) (held : Prop) (answer : Option Result) : Prop where
  unanswered : answer = none → x.locked = true
  answered : ∀ v, answer = some v → x.result = some v ∧ (x.locked = true ↔ held)

inductive WaiterSim (h : Handler) (t : Mailboxes) : Waiter RecordPtr → Waiter Nat → Prop
  | idle : WaiterSim h t .idle .idle
  | waiting {id : RequestID} {r : RecordPtr} {n : Nat} {k : Kind} {limit : Nat}
      (hr : h.requests id = some r) (hn : t.current id = some n) :
      WaiterSim h t (.waiting id r k limit) (.waiting id n k limit)
  | locked {id : RequestID} {r : RecordPtr} {n : Nat} {k : Kind}
      (hr : h.requests id = some r) (hn : t.current id = some n) (ha : t.answer n ≠ none) :
      WaiterSim h t (.locked id r k) (.locked id n k)
  | copied {id : RequestID} {r : RecordPtr} {n : Nat} {x : Option Result}
      (hr : h.requests id = some r) (hn : t.current id = some n) (ha : t.answer n ≠ none) :
      WaiterSim h t (.copied id r x) (.copied id n x)

/-- The record that the serving thread will complete is not free, and if it is pending then for
the registration that was looked up. -/
inductive CallSim (h : Handler) (t : Mailboxes) :
    Option (RecordPtr × Result) → Option (Nat × Result) → Prop
  | idle : CallSim h t none none
  | serving {r : RecordPtr} {n : Nat} {v : Result} (hn : n < t.count) (ha : t.answer n = none)
      (hfree : r ∉ h.freeRecords) (hr : r < h.allocated)
      (hiff : ∀ id, h.requests id = some r ↔ t.current id = some n) :
      CallSim h t (some (r, v)) (some (n, v))

structure Sim (tr : History) (s : State) (t : Mailboxes) : Prop where
  pool : Pool s.handler
  requestID : s.handler.requestID = t.requestID
  absent : ∀ id, t.current id = none → s.handler.requests id = none
  entry : ∀ id n, t.current id = some n → ∃ r, s.handler.requests id = some r ∧
    Matches (s.handler.records r) (s.waiter.holds r) (t.answer n)
  inj : ∀ id id' n, t.current id = some n → t.current id' = some n → id = id'
  bound : ∀ id n, t.current id = some n → n < t.count
  unanswered : ∀ n, t.count ≤ n → t.answer n = none
  waiter : WaiterSim s.handler t s.waiter t.waiter
  call : CallSim s.handler t s.server t.call
  fresh : ∀ id n, t.current id = some n → called tr id = false →
    t.answer n = none ∧ ∀ v, t.call ≠ some (n, v)

theorem sim_init : Sim [] threads.init mailboxes.init := by
  refine ⟨pool_new, rfl, fun _ _ => rfl, ?_, ?_, ?_, fun _ _ => rfl, .idle, .idle, ?_⟩
  · intro id n h
    cases h
  · intro id id' n h
    cases h
  · intro id n h
    cases h
  · intro id n h
    cases h

/-- The registration and the record of a pending request. -/
theorem Sim.current_of_requests {tr : History} {s : State} {t : Mailboxes} (h : Sim tr s t)
    {id : RequestID} {r : RecordPtr} (hr : s.handler.requests id = some r) :
    ∃ n, t.current id = some n ∧
      Matches (s.handler.records r) (s.waiter.holds r) (t.answer n) := by
  cases hn : t.current id with
  | none =>
      rw [h.absent id hn] at hr
      cases hr
  | some n =>
      obtain ⟨q, hq, hm⟩ := h.entry id n hn
      rw [hr, Option.some.injEq] at hq
      exact ⟨n, rfl, hq ▸ hm⟩

theorem Sim.record_matches {tr : History} {s : State} {t : Mailboxes} (h : Sim tr s t)
    {id : RequestID} {r : RecordPtr} {n : Nat} (hr : s.handler.requests id = some r)
    (hn : t.current id = some n) :
    Matches (s.handler.records r) (s.waiter.holds r) (t.answer n) := by
  obtain ⟨m, hm, hmatch⟩ := h.current_of_requests hr
  rw [hn, Option.some.injEq] at hm
  exact hm ▸ hmatch

/-- The registration that the serving thread looked up exists and has no answer yet. -/
theorem Sim.unanswered_call {tr : History} {s : State} {t : Mailboxes} (h : Sim tr s t) {n : Nat}
    {v : Result} (hcall : t.call = some (n, v)) : n < t.count ∧ t.answer n = none := by
  have hs := h.call
  rw [hcall] at hs
  generalize s.server = c at hs
  cases hs with
  | serving hn ha _ _ _ => exact ⟨hn, ha⟩

theorem Sim.current_none {tr : History} {s : State} {t : Mailboxes} (h : Sim tr s t)
    {id : RequestID} (hr : s.handler.requests id = none) : t.current id = none := by
  cases hn : t.current id with
  | none => rfl
  | some n =>
      obtain ⟨q, hq, -⟩ := h.entry id n hn
      rw [hr] at hq
      cases hq

/-- An event that changes nothing. -/
theorem Sim.stutter {tr : History} {s : State} {t : Mailboxes} {e : Action × Output}
    (h : Sim tr s t) (he : ∀ j b, calledStep j b e = b) : Sim (tr ++ [e]) s t := by
  refine { h with fresh := fun id n hn hc => h.fresh id n hn ?_ }
  rwa [called_snoc, he] at hc

theorem Sim.idle {tr : History} {s : State} {t : Mailboxes} (h : Sim tr s t)
    (hw : s.waiter = .idle) : t.waiter = .idle := by
  have hs := h.waiter
  rw [hw] at hs
  generalize t.waiter = w at hs
  cases hs
  rfl

/-! ## The steps of the waiting thread -/

/-- The record of a new registration is not the one that the serving thread will complete. -/
theorem CallSim.register {h h' : Handler} {t : Mailboxes} {id : RequestID} {r : RecordPtr}
    {c : Option (RecordPtr × Result)} {d : Option (Nat × Result)} (hs : CallSim h t c d)
    (hr : Registered h h' id r) :
    CallSim h' { t with
      requestID := id
      count := t.count + 1
      current := Function.update t.current id (some t.count) } c d := by
  cases hs with
  | idle => exact .idle
  | @serving q n v hn ha hfree hq hiff =>
      have hne : r ≠ q := by
        rintro rfl
        rcases hr.from_free with hm | ⟨-, he⟩
        · exact hfree hm
        · exact (Nat.ne_of_lt hq) he
      refine .serving (Nat.lt_succ_of_lt hn) ha ?_ ((hr.allocated q).mpr (Or.inl hq)) fun j => ?_
      · intro hm
        rw [hr.free] at hm
        exact hfree (List.mem_of_mem_tail hm)
      · rw [hr.requests]
        by_cases hj : j = id
        · subst hj
          have hnc : t.count ≠ n := (Nat.ne_of_lt hn).symm
          simp [hne, hnc]
        · simpa [Function.update_of_ne hj] using hiff j

theorem sim_register {tr : History} {s : State} {t : Mailboxes} {data : Nat} {id : RequestID}
    {h' : Handler} (h : Sim tr s t) (hw : s.waiter = .idle)
    (hreg : s.handler.registerRequest data = (id, h')) :
    id = (t.requestID + 1) % maxUint32 ∧
      Sim (tr ++ [(.registerRequest data, .registered id)]) { s with handler := h' }
        { t with
          requestID := id
          count := t.count + 1
          current := Function.update t.current id (some t.count) } := by
  obtain ⟨r, hr⟩ := registerRequest_spec h.pool hreg
  have hfresh : ∀ j, t.current j ≠ some t.count := fun j hj => lt_irrefl _ (h.bound j _ hj)
  have hnew : t.answer t.count = none := h.unanswered _ (le_refl _)
  refine ⟨by rw [hr.id_eq, h.requestID], h.pool.register hr, hr.requestID, ?_, ?_, ?_, ?_, ?_, ?_,
    h.call.register hr, ?_⟩
  · intro j hj
    by_cases hji : j = id
    · subst hji
      simp at hj
    · show h'.requests j = none
      rw [hr.requests, Function.update_of_ne hji]
      exact h.absent j ((Function.update_of_ne hji _ _).symm.trans hj)
  · intro j n hj
    rcases PartialMap.update_some_eq.mp hj with ⟨rfl, rfl⟩ | ⟨hji, hj⟩
    · refine ⟨r, by rw [hr.requests, Function.update_self], fun _ => hr.locked, fun v hv => ?_⟩
      rw [hnew] at hv
      cases hv
    · obtain ⟨q, hq, hm⟩ := h.entry j n hj
      have hqr : q ≠ r := fun he => hr.fresh j (he ▸ hq)
      refine ⟨q, by rw [hr.requests, Function.update_of_ne hji, hq], ?_⟩
      rw [hr.records q hqr]
      exact hm
  · exact PartialMap.Injective.put h.inj hfresh id
  · intro j n hj
    rcases PartialMap.update_some_eq.mp hj with ⟨-, rfl⟩ | ⟨-, hj⟩
    · exact Nat.lt_succ_self _
    · exact Nat.lt_succ_of_lt (h.bound j n hj)
  · intro n hn
    exact h.unanswered n (Nat.le_of_succ_le hn)
  · show WaiterSim h' _ s.waiter t.waiter
    rw [hw, h.idle hw]
    exact .idle
  · intro j n hj hc
    rw [called_snoc] at hc
    rcases PartialMap.update_some_eq.mp hj with ⟨rfl, rfl⟩ | ⟨hji, hj⟩
    · exact ⟨hnew, fun v hv => lt_irrefl _ (h.unanswered_call hv).1⟩
    · simp only [calledStep, if_neg (Ne.symm hji)] at hc
      exact h.fresh j n hj hc

theorem CallSim.unregister {h : Handler} {t : Mailboxes} {w : Waiter Nat}
    {c : Option (RecordPtr × Result)} {d : Option (Nat × Result)} (hs : CallSim h t c d)
    {id : RequestID} (hcall : ∀ n v, t.current id = some n → d ≠ some (n, v)) :
    CallSim (h.unregisterRequest id)
      { t with current := Function.update t.current id none, waiter := w } c d := by
  cases hs with
  | idle => exact .idle
  | @serving q n v hn ha hfree hq hiff =>
      refine .serving hn ha ?_ (by rwa [unregisterRequest_allocated]) fun j => ?_
      · rw [mem_unregisterRequest_free]
        rintro (hm | hm)
        · exact hfree hm
        · exact hcall n v ((hiff id).mp hm) rfl
      · rw [unregisterRequest_requests]
        by_cases hj : j = id
        · subst hj
          simp
        · simpa [Function.update_of_ne hj] using hiff j

/-- A request leaves the map. Its record is locked, and neither held by a wait for another
request nor about to be completed. -/
theorem sim_unregister {tr : History} {s : State} {t : Mailboxes} {id : RequestID}
    {e : Action × Output} (h : Sim tr s t)
    (hl : ∀ r, s.handler.requests id = some r → (s.handler.records r).locked = true)
    (hheld : ∀ r, s.waiter.holds r → s.handler.requests id = some r)
    (hcall : ∀ n v, t.current id = some n → t.call ≠ some (n, v))
    (he : ∀ j b, j ≠ id → calledStep j b e = b) :
    Sim (tr ++ [e]) { s with handler := s.handler.unregisterRequest id, waiter := .idle }
      { t with current := Function.update t.current id none, waiter := .idle } := by
  refine ⟨h.pool.unregister hl, by simp [h.requestID], ?_, ?_, ?_, ?_, h.unanswered, .idle,
    h.call.unregister hcall, ?_⟩
  · intro j hj
    show (s.handler.unregisterRequest id).requests j = none
    rw [unregisterRequest_requests]
    by_cases hji : j = id
    · rw [hji, Function.update_self]
    · rw [Function.update_of_ne hji]
      exact h.absent j ((Function.update_of_ne hji _ _).symm.trans hj)
  · intro j n hj
    obtain ⟨hji, hj⟩ := PartialMap.update_none_eq.mp hj
    obtain ⟨q, hq, hm⟩ := h.entry j n hj
    have hnh : ¬ s.waiter.holds q := fun hh => hji (h.pool.inj j id q hq (hheld q hh))
    refine ⟨q, ?_, ?_⟩
    · show (s.handler.unregisterRequest id).requests j = some q
      rw [unregisterRequest_requests, Function.update_of_ne hji, hq]
    · show Matches ((s.handler.unregisterRequest id).records q) False (t.answer n)
      rw [unregisterRequest_records]
      rwa [eq_false hnh] at hm
  · exact PartialMap.Injective.remove h.inj id
  · intro j n hj
    exact h.bound j n (PartialMap.update_none_eq.mp hj).2
  · intro j n hj hc
    obtain ⟨hji, hj⟩ := PartialMap.update_none_eq.mp hj
    rw [called_snoc, he j _ hji] at hc
    exact h.fresh j n hj hc

theorem WaiterSim.mono {h h' : Handler} {t t' : Mailboxes} {w : Waiter RecordPtr} {w' : Waiter Nat}
    (hs : WaiterSim h t w w') (hreq : h'.requests = h.requests) (hcur : t'.current = t.current)
    (hans : ∀ n, t.answer n ≠ none → t'.answer n ≠ none) : WaiterSim h' t' w w' := by
  cases hs with
  | idle => exact .idle
  | waiting hr hn => exact .waiting (hreq ▸ hr) (hcur ▸ hn)
  | locked hr hn ha => exact .locked (hreq ▸ hr) (hcur ▸ hn) (hans _ ha)
  | copied hr hn ha => exact .copied (hreq ▸ hr) (hcur ▸ hn) (hans _ ha)

theorem CallSim.congr {h h' : Handler} {t t' : Mailboxes} {c : Option (RecordPtr × Result)}
    {d : Option (Nat × Result)} (hs : CallSim h t c d) (hreq : h'.requests = h.requests)
    (hfree : h'.freeRecords = h.freeRecords) (halloc : h'.allocated = h.allocated)
    (hcount : t'.count = t.count) (hcur : t'.current = t.current) (hans : t'.answer = t.answer) :
    CallSim h' t' c d := by
  cases hs with
  | idle => exact .idle
  | serving hn ha hf hr hiff =>
      refine .serving (hcount ▸ hn) (hans ▸ ha) (hfree ▸ hf) (halloc ▸ hr) ?_
      rw [hreq, hcur]
      exact hiff

/-- A step inside a wait: the waiting thread moves on, and may lock a record. -/
theorem sim_wait {tr : History} {s : State} {t : Mailboxes} {e : Action × Output}
    (h : Sim tr s t) {h' : Handler} {w : Waiter RecordPtr} {w' : Waiter Nat}
    (hreq : h'.requests = s.handler.requests) (hfree : h'.freeRecords = s.handler.freeRecords)
    (halloc : h'.allocated = s.handler.allocated) (hid : h'.requestID = s.handler.requestID)
    (hpool : Pool h') (hw : WaiterSim s.handler t w w')
    (hrec : ∀ id n r, t.current id = some n → s.handler.requests id = some r →
      Matches (s.handler.records r) (s.waiter.holds r) (t.answer n) →
      Matches (h'.records r) (w.holds r) (t.answer n))
    (he : ∀ j b, calledStep j b e = b) :
    Sim (tr ++ [e]) { s with handler := h', waiter := w } { t with waiter := w' } := by
  refine ⟨hpool, hid.trans h.requestID, ?_, ?_, h.inj, h.bound, h.unanswered,
    hw.mono hreq rfl fun _ ha => ha, h.call.congr hreq hfree halloc rfl rfl rfl, ?_⟩
  · intro j hj
    show h'.requests j = none
    rw [hreq]
    exact h.absent j hj
  · intro j n hj
    obtain ⟨r, hr, hm⟩ := h.entry j n hj
    refine ⟨r, ?_, hrec j n r hj hr hm⟩
    show h'.requests j = some r
    rw [hreq, hr]
  · intro j n hj hc
    rw [called_snoc, he] at hc
    exact h.fresh j n hj hc

theorem sim_lock {tr : History} {s : State} {t : Mailboxes} {id : RequestID} {r : RecordPtr}
    {k : Kind} {limit : Nat} (h : Sim tr s t) (hw : s.waiter = .waiting id r k limit)
    (hl : (s.handler.records r).locked = false) :
    ∃ n, t.waiter = .waiting id n k limit ∧ (t.answer n).isSome = true ∧
      Sim (tr ++ [(.waiter, .running)])
        { s with
          handler := s.handler.setRecord r { s.handler.records r with locked := true }
          waiter := .locked id r k }
        { t with waiter := .locked id n k } := by
  have hs := h.waiter
  rw [hw] at hs
  generalize hw' : t.waiter = w' at hs
  cases hs with
  | @waiting _ _ n _ _ hr hn =>
      -- the lock is taken, so `serveRequest` has released it
      have ha : t.answer n ≠ none := by
        intro ha
        rw [(h.record_matches hr hn).unanswered ha] at hl
        cases hl
      refine ⟨n, rfl, Option.isSome_iff_ne_none.mpr ha, ?_⟩
      refine sim_wait h rfl rfl rfl rfl (h.pool.setRecord (h.pool.apart id r hr) _)
        (.locked hr hn ha) ?_ fun _ _ => rfl
      intro j m q hj hq hmj
      rw [hw] at hmj
      by_cases hqr : q = r
      · subst hqr
        refine ⟨fun _ => by simp, fun v hv => ⟨?_, ?_⟩⟩
        · rw [setRecord_same]
          exact (hmj.answered v hv).1
        · simp [Waiter.holds]
      · have hnh : ¬ (Waiter.locked id r k).holds q := fun he => hqr (Eq.symm he)
        rw [setRecord_ne _ _ hqr, eq_false hnh]
        exact hmj

/-! ## The steps of the serving thread -/

/-- A request whose record is held by a wait has been answered. -/
theorem Sim.answered_of_holds {tr : History} {s : State} {t : Mailboxes} (h : Sim tr s t)
    {r : RecordPtr} (hr : s.waiter.holds r) :
    ∃ id n, s.handler.requests id = some r ∧ t.current id = some n ∧ t.answer n ≠ none := by
  have hs := h.waiter
  generalize hw : s.waiter = w at hs hr
  generalize t.waiter = w' at hs
  cases hs with
  | idle => exact hr.elim
  | waiting _ _ => exact hr.elim
  | @locked id q n _ hq hn ha =>
      have hqr : q = r := hr
      exact ⟨id, n, hqr ▸ hq, hn, ha⟩
  | @copied id q n _ hq hn ha =>
      have hqr : q = r := hr
      exact ⟨id, n, hqr ▸ hq, hn, ha⟩

theorem sim_serve {tr : History} {s : State} {t : Mailboxes} {id : RequestID} {r : RecordPtr}
    {n : Nat} {v : Result} (h : Sim tr s t) (hc : called tr id = false)
    (hr : s.handler.requests id = some r) (hn : t.current id = some n) :
    Sim (tr ++ [(.serveRequest id v, .running)]) { s with server := some (r, v) }
      { t with call := some (n, v) } := by
  obtain ⟨ha, -⟩ := h.fresh id n hn hc
  refine ⟨h.pool, h.requestID, h.absent, h.entry, h.inj, h.bound, h.unanswered,
    h.waiter.mono rfl rfl fun _ ha => ha, ?_, ?_⟩
  · refine .serving (h.bound id n hn) ha (h.pool.apart id r hr) (h.pool.bound id r hr) fun j => ?_
    constructor
    · intro hj
      rw [h.pool.inj j id r hj hr]
      exact hn
    · intro hj
      rw [h.inj j id n hj hn]
      exact hr
  · intro j m hj hcj
    rw [called_snoc] at hcj
    by_cases hji : id = j
    · simp [calledStep, hji] at hcj
    · simp only [calledStep, if_neg hji] at hcj
      refine ⟨(h.fresh j m hj hcj).1, fun w hw => hji ?_⟩
      have hnm : n = m := (Prod.mk.inj (Option.some.inj hw)).1
      exact h.inj id j n hn (hnm ▸ hj)

/-- Completing a call changes the record of the registration that was looked up and no record
of another request. -/
theorem sim_server {tr : History} {s : State} {t : Mailboxes} {r : RecordPtr} {n : Nat}
    {v : Result} (h : Sim tr s t) (hsrv : s.server = some (r, v)) (hcall : t.call = some (n, v)) :
    Sim (tr ++ [(.server, .done)]) { s with handler := s.handler.complete r v, server := none }
      { t with answer := Function.update t.answer n (some v), call := none } := by
  have hs := h.call
  rw [hsrv, hcall] at hs
  cases hs with
  | serving hn ha hfree hr hiff =>
    -- a wait holds only records of answered requests
    have hnh : ¬ s.waiter.holds r := by
      intro hh
      obtain ⟨id, m, hid, hm, hne⟩ := h.answered_of_holds hh
      rw [(hiff id).mp hid, Option.some.injEq] at hm
      exact hne (hm ▸ ha)
    rw [complete_eq]
    refine ⟨h.pool.setRecord hfree _, h.requestID, h.absent, ?_, h.inj, h.bound, ?_, ?_, .idle, ?_⟩
    · intro j m hj
      by_cases hmn : m = n
      · subst hmn
        refine ⟨r, (hiff j).mpr hj, fun hnone => ?_, fun w hw => ?_⟩
        · simp at hnone
        · have hvw : v = w := by simpa using hw
          show ((s.handler.setRecord r _).records r).result = some w ∧ (_ ↔ s.waiter.holds r)
          rw [setRecord_same, eq_false hnh]
          simpa using hvw
      · obtain ⟨q, hq, hm⟩ := h.entry j m hj
        have hqr : q ≠ r := by
          rintro rfl
          rw [(hiff j).mp hq, Option.some.injEq] at hj
          exact hmn hj.symm
        refine ⟨q, hq, ?_⟩
        show Matches ((s.handler.setRecord r _).records q) _ (Function.update t.answer n (some v) m)
        rw [setRecord_ne _ _ hqr, Function.update_of_ne hmn]
        exact hm
    · intro m hm
      have hmn : m ≠ n := fun he => absurd hn (Nat.not_lt.mpr (he ▸ hm))
      exact (Function.update_of_ne hmn _ _).trans (h.unanswered m hm)
    · refine h.waiter.mono rfl rfl fun m hm => ?_
      show Function.update t.answer n (some v) m ≠ none
      by_cases hmn : m = n
      · simp [hmn]
      · rwa [Function.update_of_ne hmn]
    · intro j m hj hc
      rw [called_snoc] at hc
      obtain ⟨ham, hcm⟩ := h.fresh j m hj hc
      have hmn : m ≠ n := fun he => hcm v (by rw [he]; exact hcall)
      exact ⟨(Function.update_of_ne hmn _ _).trans ham, fun _ hx => by cases hx⟩

/-! ## The histories of the threads are histories of the mailboxes -/

/-- Readiness is what the mailboxes say. -/
theorem Sim.ready {tr : History} {s : State} {t : Mailboxes} (h : Sim tr s t)
    (hw : s.waiter = .idle) (id : RequestID) :
    s.handler.isRequestReady id = (t.ready id, s.handler) := by
  rw [isRequestReady_eq, Mailboxes.ready]
  cases hn : t.current id with
  | none => rw [h.absent id hn]
  | some n =>
      obtain ⟨r, hr, hm⟩ := h.entry id n hn
      rw [hr]
      cases ha : t.answer n with
      | none => simp [hm.unanswered ha, ha]
      | some v =>
          have hl : (s.handler.records r).locked = false := by
            rw [← Bool.not_eq_true, (hm.answered v ha).2, hw]
            exact fun hh => hh
          simp [hl, ha]

/-- The result is copied out of the locked record: it is the answer in the mailbox. -/
theorem sim_copy {tr : History} {s : State} {t : Mailboxes} {id : RequestID} {r : RecordPtr}
    {k : Kind} (h : Sim tr s t) (hw : s.waiter = .locked id r k) :
    ∃ n, t.waiter = .locked id n k ∧
      Sim (tr ++ [(.waiter, .running)])
        { s with waiter := .copied id r (k.read (s.handler.records r).result) }
        { t with waiter := .copied id n (k.read (t.answer n)) } := by
  have hs := h.waiter
  rw [hw] at hs
  generalize hw' : t.waiter = w' at hs
  cases hs with
  | @locked _ _ n _ hr hn ha =>
      obtain ⟨v, hv⟩ := Option.ne_none_iff_exists'.mp ha
      have hx : (s.handler.records r).result = t.answer n := by
        rw [((h.record_matches hr hn).answered v hv).1, hv]
      refine ⟨n, rfl, ?_⟩
      rw [hx]
      refine sim_wait h rfl rfl rfl rfl h.pool (.copied hr hn ha) ?_ fun _ _ => rfl
      intro j i q _ _ hmj
      rw [hw] at hmj
      exact hmj

/-- The end of a successful wait: the request is unregistered by the thread that locked its
record. -/
theorem sim_collect {tr : History} {s : State} {t : Mailboxes} {id : RequestID} {r : RecordPtr}
    {x : Option Result} (h : Sim tr s t) (hw : s.waiter = .copied id r x) :
    ∃ n, t.waiter = .copied id n x ∧
      Sim (tr ++ [(.waiter, .waited id true x)])
        { s with handler := s.handler.unregisterRequest id, waiter := .idle }
        { t with current := Function.update t.current id none, waiter := .idle } := by
  have hs := h.waiter
  rw [hw] at hs
  generalize hw' : t.waiter = w' at hs
  cases hs with
  | @copied _ _ n _ hr hn ha =>
      refine ⟨n, rfl, sim_unregister h ?_ ?_ ?_ ?_⟩
      · intro q hq
        obtain ⟨v, hv⟩ := Option.ne_none_iff_exists'.mp ha
        rw [((h.record_matches hq hn).answered v hv).2, hw]
        rw [hr, Option.some.injEq] at hq
        exact hq
      · intro q hq
        rw [hw] at hq
        rw [hr]
        exact congrArg some hq
      · -- the request has its answer, so no call is about to complete its record
        intro m v hm hcall
        rw [hn, Option.some.injEq] at hm
        exact ha (hm ▸ (h.unanswered_call hcall).2)
      · intro j b hj
        exact if_neg (Ne.symm hj)

theorem sim_waiter {tr : History} {s s' : State} {t : Mailboxes} {b : Output} (h : Sim tr s t)
    (hs : s.wait = some (b, s')) :
    ∃ t', t.wait = some (b, t') ∧ Sim (tr ++ [(.waiter, b)]) s' t' := by
  unfold State.wait at hs
  cases hw : s.waiter with
  | idle => simp [hw] at hs
  | waiting id r k limit =>
      cases hl : (s.handler.records r).locked with
      | true => simp [hw, Handler.tryLock, hl] at hs
      | false =>
          simp only [hw, Handler.tryLock, hl, Bool.false_eq_true, if_false, Option.some.injEq,
            Prod.mk.injEq] at hs
          obtain ⟨rfl, rfl⟩ := hs
          obtain ⟨n, hn, ha, hS⟩ := sim_lock h hw hl
          exact ⟨_, by simp [Mailboxes.wait, hn, ha], hS⟩
  | locked id r k =>
      simp only [hw, Option.some.injEq, Prod.mk.injEq] at hs
      obtain ⟨rfl, rfl⟩ := hs
      obtain ⟨n, hn, hS⟩ := sim_copy h hw
      exact ⟨_, by simp [Mailboxes.wait, hn], hS⟩
  | copied id r x =>
      simp only [hw, Option.some.injEq, Prod.mk.injEq] at hs
      obtain ⟨rfl, rfl⟩ := hs
      obtain ⟨n, hn, hS⟩ := sim_collect h hw
      exact ⟨_, by simp [Mailboxes.wait, hn], hS⟩

/-- `waitRequest` looks up its record, and begins to wait if it finds one. -/
theorem sim_waitRequest {tr : History} {hd : Handler} {srv : Option (RecordPtr × Result)}
    {s' : State} {t : Mailboxes} {id : RequestID} {k : Kind} {timeout : Nat} {b : Output}
    (h : Sim tr ⟨hd, .idle, srv⟩ t)
    (hs : State.step ⟨hd, .idle, srv⟩ (.waitRequest id k timeout) = some (b, s')) :
    ∃ t', t.step (.waitRequest id k timeout) = some (b, t') ∧
      Sim (tr ++ [(.waitRequest id k timeout, b)]) s' t' := by
  cases hr : hd.requests id with
  | none =>
      simp only [State.step, hr, Option.some.injEq, Prod.mk.injEq] at hs
      obtain ⟨rfl, rfl⟩ := hs
      refine ⟨t, ?_, h.stutter fun _ _ => rfl⟩
      simp only [Mailboxes.step, h.idle rfl, h.current_none hr]
  | some r =>
      simp only [State.step, hr, Option.some.injEq, Prod.mk.injEq] at hs
      obtain ⟨rfl, rfl⟩ := hs
      obtain ⟨n, hn, -⟩ := h.current_of_requests hr
      refine ⟨{ t with waiter := .waiting id n k timeout }, ?_, ?_⟩
      · simp only [Mailboxes.step, h.idle rfl, hn]
      · exact sim_wait h rfl rfl rfl rfl h.pool (.waiting hr hn) (fun _ _ _ _ _ hm => hm)
          fun _ _ => rfl

/-- A wait with a limit can give up as long as it has not locked the record. -/
theorem sim_timeout {tr : History} {hd : Handler} {srv : Option (RecordPtr × Result)}
    {s' : State} {t : Mailboxes} {id : RequestID} {r : RecordPtr} {k : Kind} {limit : Nat}
    {b : Output} (h : Sim tr ⟨hd, .waiting id r k limit, srv⟩ t)
    (hs : State.step ⟨hd, .waiting id r k limit, srv⟩ .timeout = some (b, s')) :
    ∃ t', t.step .timeout = some (b, t') ∧ Sim (tr ++ [(.timeout, b)]) s' t' := by
  have hsim := h.waiter
  generalize hw' : t.waiter = w' at hsim
  cases hsim with
  | waiting hr hn =>
      by_cases hlim : limit = timeoutIndefinite
      · simp [State.step, hlim] at hs
      · simp only [State.step, if_neg hlim, Option.some.injEq, Prod.mk.injEq] at hs
        obtain ⟨rfl, rfl⟩ := hs
        refine ⟨{ t with waiter := .idle }, ?_, ?_⟩
        · simp only [Mailboxes.step, hw', if_neg hlim]
        · exact sim_wait h rfl rfl rfl rfl h.pool .idle (fun _ _ _ _ _ hm => hm) fun _ _ => rfl

/-- `serveRequest` looks up its record: nothing is written yet. -/
theorem sim_serveRequest {tr : History} {s s' : State} {t : Mailboxes} {id : RequestID}
    {v : Result} {b : Output} (h : Sim tr s t) (hc : called tr id = false)
    (hs : s.step (.serveRequest id v) = some (b, s')) :
    ∃ t', t.step (.serveRequest id v) = some (b, t') ∧
      Sim (tr ++ [(.serveRequest id v, b)]) s' t' := by
  obtain ⟨hd, w, srv⟩ := s
  have hcall := h.call
  generalize hd' : t.call = d at hcall
  cases hcall with
  | serving _ _ _ _ _ => cases hs
  | idle =>
      cases hr : hd.requests id with
      | none =>
          simp only [State.step, hr, Option.some.injEq, Prod.mk.injEq] at hs
          obtain ⟨rfl, rfl⟩ := hs
          refine ⟨t, ?_, h.stutter fun _ _ => rfl⟩
          simp only [Mailboxes.step, hd', h.current_none hr]
      | some r =>
          simp only [State.step, hr, Option.some.injEq, Prod.mk.injEq] at hs
          obtain ⟨rfl, rfl⟩ := hs
          obtain ⟨n, hn, -⟩ := h.current_of_requests hr
          refine ⟨{ t with call := some (n, v) }, ?_, sim_serve h hc hr hn⟩
          simp only [Mailboxes.step, hd', hn]

theorem sim_step {tr : History} {s s' : State} {t : Mailboxes} {a : Action} {b : Output}
    (h : Sim tr s t) (hC : Undisturbed tr a) (hs : s.step a = some (b, s')) :
    ∃ t', t.step a = some (b, t') ∧ Sim (tr ++ [(a, b)]) s' t' := by
  obtain ⟨hd, w, srv⟩ := s
  cases a with
  | registerRequest data =>
      cases w with
      | idle =>
          rcases hreg : hd.registerRequest data with ⟨id, h'⟩
          simp only [State.step, hreg, Option.some.injEq, Prod.mk.injEq] at hs
          obtain ⟨rfl, rfl⟩ := hs
          obtain ⟨hid, hS⟩ := sim_register h rfl hreg
          refine ⟨_, ?_, hS⟩
          simp only [Mailboxes.step, h.idle rfl, hid]
      | waiting | locked | copied => cases hs
  | unregisterRequest id =>
      cases w with
      | idle =>
          simp only [State.step, Option.some.injEq, Prod.mk.injEq] at hs
          obtain ⟨rfl, rfl⟩ := hs
          refine ⟨_, ?_, sim_unregister h ?_ ?_ ?_ ?_⟩
          · simp only [Mailboxes.step, h.idle rfl]
          · -- no call has looked the request up, so its record is still locked
            intro r hr
            obtain ⟨n, hn, hm⟩ := h.current_of_requests hr
            exact hm.unanswered (h.fresh id n hn hC).1
          · intro r hr
            exact hr.elim
          · intro n v hn
            exact (h.fresh id n hn hC).2 v
          · intro j c hj
            exact if_neg (Ne.symm hj)
      | waiting | locked | copied => cases hs
  | isRequestReady id =>
      cases w with
      | idle =>
          have hr := h.ready rfl id
          simp only [State.step, Option.some.injEq, Prod.mk.injEq] at hs hr
          obtain ⟨rfl, rfl⟩ := hs
          rw [hr]
          refine ⟨t, by simp only [Mailboxes.step, h.idle rfl], ?_⟩
          exact h.stutter fun _ _ => rfl
      | waiting | locked | copied => cases hs
  | waitRequest id k timeout =>
      cases w with
      | idle => exact sim_waitRequest h hs
      | waiting | locked | copied => cases hs
  | waiter => exact sim_waiter h hs
  | timeout =>
      cases w with
      | waiting id r k limit => exact sim_timeout h hs
      | idle | locked | copied => cases hs
  | serveRequest id v => exact sim_serveRequest h hC hs
  | server =>
      have hcall := h.call
      generalize hd' : t.call = d at hcall
      cases hcall with
      | idle => cases hs
      | serving _ _ _ _ _ =>
          simp only [State.step, Option.some.injEq, Prod.mk.injEq] at hs
          obtain ⟨rfl, rfl⟩ := hs
          refine ⟨_, ?_, sim_server h rfl hd'⟩
          simp only [Mailboxes.step, hd']

/-- **Serving a request touches no other.** In a run in which no request is served again or
unregistered once a call of `serveRequest` has looked it up, the threads behave as the
mailboxes do: their history is one of the mailboxes, readiness is what the mailboxes say, and
completing a call leaves the records of all other requests as they are. -/
theorem serve_touches_one_request {tr : History} {s : State} (h : threads.Trace tr s)
    (hC : Respects Undisturbed tr) :
    ∃ m, mailboxes.Trace tr m ∧
      (s.waiter = .idle → ∀ id, s.handler.isRequestReady id = (m.ready id, s.handler)) ∧
      ∀ r v, s.server = some (r, v) → ∃ n, m.call = some (n, v) ∧
        ∀ id j, m.current id = some j → j ≠ n →
          ∃ q, s.handler.requests id = some q ∧ (s.handler.complete r v).requests id = some q ∧
            (s.handler.complete r v).records q = s.handler.records q := by
  obtain ⟨m, hm, hS⟩ := h.simulate Sim sim_init (fun _ _ _ _ _ _ => sim_step) hC
  refine ⟨m, hm, hS.ready, fun r v hsrv => ?_⟩
  have hcall := hS.call
  rw [hsrv] at hcall
  generalize hd : m.call = d at hcall
  cases hcall with
  | @serving _ n _ _ _ _ _ hiff =>
      refine ⟨n, rfl, fun id j hj hjn => ?_⟩
      obtain ⟨q, hq, -⟩ := hS.entry id j hj
      have hqr : q ≠ r := by
        rintro rfl
        rw [(hiff id).mp hq, Option.some.injEq] at hj
        exact hjn hj.symm
      rw [complete_eq]
      exact ⟨q, hq, hq, setRecord_ne _ _ hqr⟩

/-- A second request is registered while the first one is being served. -/
def servedHistory : History :=
  [(.registerRequest 0, .registered 2), (.serveRequest 2 (.rUint32 7), .running),
    (.registerRequest 0, .registered 3), (.isRequestReady 2, .ready false), (.server, .done),
    (.isRequestReady 2, .ready true), (.isRequestReady 3, .ready false)]

theorem serve_touches_one_request_two :
    ∃ s m, threads.Trace servedHistory s ∧ mailboxes.Trace servedHistory m ∧
      s.handler.isRequestReady 3 = (m.ready 3, s.handler) := by
  have h : threads.Trace servedHistory _ :=
    Machine.Trace.of_run [.registerRequest 0, .serveRequest 2 (.rUint32 7), .registerRequest 0,
      .isRequestReady 2, .server, .isRequestReady 2, .isRequestReady 3] rfl
  have hC : Respects Undisturbed servedHistory :=
    respects_of_checks (by simp [servedHistory, checks, Undisturbed, called, calledStep])
  obtain ⟨m, hm, hready, -⟩ := serve_touches_one_request h hC
  exact ⟨_, m, h, hm, hready rfl 3⟩

/-- Without the condition the answer can reach another request. The request 2 is unregistered
between the two steps of a call that serves it, and the request 3 gets its record: completing
the call makes 3 ready, and a wait for 3 yields the value that was meant for 2. -/
theorem serve_completes_other_request :
    ∃ s, threads.Trace
      [(.registerRequest 0, .registered 2), (.serveRequest 2 (.rUint32 7), .running),
        (.unregisterRequest 2, .done), (.registerRequest 0, .registered 3),
        (.isRequestReady 3, .ready false), (.server, .done), (.isRequestReady 3, .ready true),
        (.waitRequest 3 .uint32 0, .running), (.waiter, .running), (.waiter, .running),
        (.waiter, .waited 3 true (some (.rUint32 7)))] s :=
  ⟨_, Machine.Trace.of_run [.registerRequest 0, .serveRequest 2 (.rUint32 7),
    .unregisterRequest 2, .registerRequest 0, .isRequestReady 3, .server, .isRequestReady 3,
    .waitRequest 3 .uint32 0, .waiter, .waiter, .waiter] rfl⟩

end Lunchbox.RequestHandler.Interleaving
