import Lunchbox.RequestHandler.Pairing

set_option autoImplicit false

/-! # Identifiers over a whole run

Runs of any length. `registerRequest` counts its identifiers modulo `LB_MAX_UINT32` and writes
the map entry of the new one without looking whether a request is pending under it. A request
that is pending for a whole round of the counter is overwritten then: its record is in neither
the map nor the free list. That no request is pending for so long is exactly what keeps all
requests and records (`identifiers_unique_iff`).
-/

namespace Lunchbox.RequestHandler

open StateMachine

/-! ## The property and the condition -/

/-- What should hold after a history that leads to `s`: no record is lost, and if the last
operation registered a request, its identifier was not pending before, and the requests that
were pending have the records and the data they had. -/
structure Accounted (tr : History) (s : Handler) : Prop where
  noneLost : NoneLost s
  unique : ∀ pre data id s0, tr = pre ++ [(.registerRequest data, .registered id)] →
    handler.Trace pre s0 → s0.requests id = none
  kept : ∀ pre data id s0, tr = pre ++ [(.registerRequest data, .registered id)] →
    handler.Trace pre s0 → ∀ j r, s0.requests j = some r →
      s.requests j = some r ∧ (s.records r).data = (s0.records r).data

/-- The event that ends the request `id`: it is unregistered, or a wait for it returns true. -/
def Ends (id : RequestID) : Op × Output → Prop
  | (.unregisterRequest j, _) => j = id
  | (.waitRequest j _ _, .waited true _) => j = id
  | _ => False

/-- No request is pending for a round of the counter: when a request is registered, fewer than
`LB_MAX_UINT32` were, this one included, since the registration of any that has not ended. -/
def WithinRound (tr : History) : Op → Prop
  | .registerRequest _ => ∀ pre data id post,
      tr = pre ++ (.registerRequest data, .registered id) :: post →
      (∀ e ∈ post, ¬Ends id e) → (issued post).length + 1 < maxUint32
  | _ => True

/-- No request is pending under the identifier that a registration is about to use. -/
def NextIsFree (s : Handler) : Op → Prop
  | .registerRequest _ => s.requests ((s.requestID + 1) % maxUint32) = none
  | _ => True

instance (s : Handler) (a : Op) : Decidable (NextIsFree s a) := by
  cases a <;> unfold NextIsFree <;> infer_instance

/-! ## One step -/

theorem Shrinks.separate {s s' : Handler} (h : Shrinks s s') (hp : Separate s) : Separate s' := by
  induction h with
  | refl => exact hp
  | setRecord _ r x ih => exact ih.setRecord r x
  | unregister _ id ih => exact ih.unregister id

/-- Every operation keeps the records apart, a registration also where it overwrites an entry. -/
theorem separate_step {s s' : Handler} {a : Op} {b : Output} (hp : Separate s)
    (hs : handler.step s a = some (b, s')) : Separate s' := by
  rcases step_cases hs with ⟨data, id, rfl, rfl, hreg⟩ | ⟨hsh, -⟩
  · obtain ⟨r, hr, -⟩ := registerRequest_filed hp hreg
    exact hp.register hr
  · exact hsh.separate hp

theorem separate_of_trace {tr : History} {s : Handler} (h : handler.Trace tr s) : Separate s :=
  h.stateInv Separate separate_new fun _ _ _ _ => separate_step

/-- Registering under an identifier that is not pending changes no pending request. -/
theorem Filed.keeps {s s' : Handler} {id : RequestID} {r : RecordPtr} (h : Filed s s' id r)
    (hnew : s.requests id = none) {j : RequestID} {q : RecordPtr} (hj : s.requests j = some q) :
    s'.requests j = some q ∧ s'.records q = s.records q := by
  have hji : j ≠ id := by
    rintro rfl
    rw [hnew] at hj
    cases hj
  refine ⟨?_, h.records q fun he => h.fresh j (he ▸ hj)⟩
  rw [h.requests, Function.update_of_ne hji, hj]

/-- After an operation that registers nothing there is only the set of records to look at. -/
theorem accounted_of_noneLost {tr : History} {s : Handler} {a : Op} {b : Output}
    (hne : ∀ data, a ≠ .registerRequest data) (h : NoneLost s) : Accounted (tr ++ [(a, b)]) s := by
  have hlast : ∀ pre data id,
      tr ++ [(a, b)] ≠ pre ++ [(.registerRequest data, .registered id)] := by
    intro pre data id he
    have hl := (List.append_inj' he rfl).2
    rw [List.singleton_inj, Prod.mk.injEq] at hl
    exact hne data hl.1
  exact ⟨h, fun pre data id _ he => absurd he (hlast pre data id),
    fun pre data id _ he => absurd he (hlast pre data id)⟩

theorem accounted_register {tr : History} {s s' : Handler} {data : Nat} {id : RequestID}
    {r : RecordPtr} (h : handler.Trace tr s) (hn : NoneLost s) (hr : Filed s s' id r)
    (hnew : s.requests id = none) :
    Accounted (tr ++ [(.registerRequest data, .registered id)]) s' := by
  have hlast : ∀ pre data' id' s0,
      tr ++ [(.registerRequest data, .registered id)]
        = pre ++ [(.registerRequest data', .registered id')] →
      handler.Trace pre s0 → s0 = s ∧ id' = id := by
    intro pre data' id' s0 he h0
    obtain ⟨rfl, hl⟩ := List.append_inj' he rfl
    cases hl
    exact ⟨h0.unique h, rfl⟩
  refine ⟨hn.register hr hnew, ?_, ?_⟩
  · intro pre data' id' s0 he h0
    obtain ⟨rfl, rfl⟩ := hlast pre data' id' s0 he h0
    exact hnew
  · intro pre data' id' s0 he h0 j q hj
    obtain ⟨rfl, rfl⟩ := hlast pre data' id' s0 he h0
    obtain ⟨hreq, hrec⟩ := hr.keeps hnew hj
    exact ⟨hreq, by rw [hrec]⟩

/-- A step keeps account of all requests exactly if it does not register over a pending one. -/
theorem accounted_step {tr : History} {s s' : Handler} {a : Op} {b : Output}
    (h : handler.Trace tr s) (hq : Accounted tr s) (hs : handler.step s a = some (b, s')) :
    Accounted (tr ++ [(a, b)]) s' ↔ NextIsFree s a := by
  rcases step_cases hs with ⟨data, id, rfl, rfl, hreg⟩ | ⟨hsh, hne⟩
  · obtain ⟨r, hr, -⟩ := registerRequest_filed (separate_of_trace h) hreg
    show _ ↔ s.requests ((s.requestID + 1) % maxUint32) = none
    rw [← hr.id_eq]
    exact ⟨fun ha => ha.unique tr data id s rfl h, accounted_register h hq.noneLost hr⟩
  · refine iff_of_true (accounted_of_noneLost hne (hq.noneLost.retire hsh.retires)) ?_
    cases a with
    | registerRequest data => exact absurd rfl (hne data)
    | serveRequest id v => trivial
    | waitRequest id k timeout => trivial
    | unregisterRequest id => trivial
    | isRequestReady id => trivial

theorem accounted_init : Accounted [] Handler.new := by
  refine ⟨fun r hr => absurd hr (Nat.not_lt_zero r), ?_, ?_⟩
  · intro pre data id s0 he
    simp at he
  · intro pre data id s0 he
    simp at he

/-- Requests and records stay accounted for exactly as long as no registration meets a pending
identifier. -/
theorem accounted_iff_nextIsFree {tr : History} {s : Handler} (h : handler.Trace tr s) :
    handler.Always Accounted tr ↔ handler.Guarded NextIsFree tr :=
  h.always_iff_guarded accounted_init fun _ _ _ _ _ => accounted_step

/-! ## Which identifiers are pending -/

/-- A request is pending after a step if the step registered it, or if it was pending before and
the step did not end it. -/
theorem requests_step {s s' : Handler} {a : Op} {b : Output} (hp : Separate s)
    (hs : handler.step s a = some (b, s')) (id : RequestID) :
    s'.requests id ≠ none ↔
      (∃ data, a = .registerRequest data ∧ b = .registered id) ∨
        s.requests id ≠ none ∧ ¬Ends id (a, b) := by
  cases a with
  | registerRequest data =>
      obtain ⟨data', j, -, rfl, hreg⟩ := (step_cases hs).resolve_right fun h => h.2 data rfl
      obtain ⟨r, hr, -⟩ := registerRequest_filed hp hreg
      rw [hr.requests]
      by_cases hj : id = j
      · simp [hj]
      · simp [hj, Ne.symm hj, Ends]
  | serveRequest j v =>
      cases hs
      have hreq : (s.serveRequest j v).requests = s.requests := by
        unfold Handler.serveRequest
        cases s.requests j <;> rfl
      simp [hreq, Ends]
  | waitRequest j k timeout =>
      obtain ⟨⟨x, t⟩, hw, he⟩ := Option.map_eq_some_iff.mp hs
      cases hj : s.requests j with
      | none =>
          rw [waitRequest_absent hj] at hw
          cases hw
          cases he
          simp [Ends]
      | some r =>
          cases hl : (s.records r).locked with
          | true =>
              rw [waitRequest_locked hj hl] at hw
              split_ifs at hw
              cases hw
              cases he
              simp [Ends]
          | false =>
              -- the request was served, and the wait unregisters it
              rw [waitRequest_unlocked hj hl] at hw
              cases hw
              cases he
              simp [Ends, Function.update_apply, eq_comm, and_comm]
  | unregisterRequest j =>
      cases hs
      simp [Ends, Function.update_apply, eq_comm, and_comm]
  | isRequestReady j =>
      simp only [handler, isRequestReady_eq] at hs
      cases hs
      simp [Ends]

/-- A pending request was registered, and has not ended since. -/
theorem pending_since {tr : History} {s : Handler} (h : handler.Trace tr s) {id : RequestID}
    (hid : s.requests id ≠ none) :
    ∃ pre data post, tr = pre ++ (.registerRequest data, .registered id) :: post ∧
      ∀ e ∈ post, ¬Ends id e := by
  induction h with
  | nil => exact absurd rfl hid
  | @snoc tr s a b s' ht hs ih =>
      rcases (requests_step (separate_of_trace ht) hs id).mp hid with
        ⟨data, rfl, rfl⟩ | ⟨hid, hends⟩
      · exact ⟨tr, data, [], rfl, by simp⟩
      · obtain ⟨pre, data, post, rfl, hpost⟩ := ih hid
        refine ⟨pre, data, post ++ [(a, b)], by simp, ?_⟩
        rw [List.forall_mem_append, List.forall_mem_singleton]
        exact ⟨hpost, hends⟩

/-- A request that was registered and has not ended is pending. -/
theorem pending_of_not_ended {pre post : History} {s : Handler} {data : Nat} {id : RequestID}
    (h : handler.Trace (pre ++ (.registerRequest data, .registered id) :: post) s)
    (hpost : ∀ e ∈ post, ¬Ends id e) : s.requests id ≠ none := by
  induction post using List.reverseRecOn generalizing s with
  | nil =>
      obtain ⟨s0, h0, hs⟩ := h.snoc_inv
      exact (requests_step (separate_of_trace h0) hs id).mpr (Or.inl ⟨data, rfl, rfl⟩)
  | append_singleton post e ih =>
      obtain ⟨a, b⟩ := e
      rw [← List.cons_append, ← List.append_assoc] at h
      rw [List.forall_mem_append, List.forall_mem_singleton] at hpost
      obtain ⟨s0, h0, hs⟩ := h.snoc_inv
      exact (requests_step (separate_of_trace h0) hs id).mpr (Or.inr ⟨ih h0 hpost.1, hpost.2⟩)

/-! ## Rounds of the counter -/

/-- The counter counts the registrations. -/
theorem requestID_eq {tr : History} {s : Handler} (h : handler.Trace tr s) :
    s.requestID = ((issued tr).length + 1) % maxUint32 := by
  induction h with
  | nil => rfl
  | @snoc tr s a b s' ht hs ih =>
      rcases step_cases hs with ⟨data, id, rfl, rfl, hreg⟩ | ⟨hsh, hne⟩
      · obtain ⟨r, hr, -⟩ := registerRequest_filed (separate_of_trace ht) hreg
        rw [hr.requestID, hr.id_eq, ih, Nat.mod_add_mod, issued_append, List.length_append]
        rfl
      · rw [hsh.retires.requestID, ih, issued_append, issued_of_ne hne, List.append_nil]

/-- The identifier of a registration, and where the counter is `(issued post).length`
registrations later. -/
theorem requestID_since {pre post : History} {s : Handler} {data : Nat} {id : RequestID}
    (h : handler.Trace (pre ++ (.registerRequest data, .registered id) :: post) s) :
    id < maxUint32 ∧ s.requestID = (id + (issued post).length) % maxUint32 := by
  obtain ⟨s0, s1, h0, hs⟩ := h.split
  have hreg : s0.registerRequest data = (id, s1) := by
    simpa [handler, Prod.ext_iff] using hs
  obtain ⟨r, hr, -⟩ := registerRequest_filed (separate_of_trace h0) hreg
  have hid := hr.id_eq
  rw [requestID_eq h0, Nat.mod_add_mod] at hid
  have hlen : (issued (pre ++ (.registerRequest data, .registered id) :: post)).length + 1
      = (issued pre).length + 1 + 1 + (issued post).length := by
    rw [issued_append, List.length_append]
    show (issued pre).length + ((issued post).length + 1) + 1 = _
    omega
  refine ⟨hid ▸ Nat.mod_lt _ (by decide), ?_⟩
  rw [requestID_eq h, hlen, hid, Nat.mod_add_mod]

/-- In a history that meets the condition, a request that has not ended is not as old as a round. -/
theorem young_of_respects {pre post : History} {data : Nat} {id : RequestID}
    (h : Respects WithinRound (pre ++ (.registerRequest data, .registered id) :: post))
    (hpost : ∀ e ∈ post, ¬Ends id e) : (issued post).length < maxUint32 := by
  induction post using List.reverseRecOn with
  | nil => decide
  | append_singleton post e ih =>
      obtain ⟨a, b⟩ := e
      rw [← List.cons_append, ← List.append_assoc, respects_snoc] at h
      rw [List.forall_mem_append] at hpost
      by_cases ha : ∃ data', a = .registerRequest data'
      · -- the condition at this registration is the bound before it, with one to spare
        obtain ⟨data', rfl⟩ := ha
        have hlt := h.2 pre data id post rfl hpost.1
        have hone : (issued [(Op.registerRequest data', b)]).length ≤ 1 :=
          List.length_filterMap_le _ _
        rw [issued_append, List.length_append]
        omega
      · rw [issued_append, issued_of_ne fun data' he => ha ⟨data', he⟩, List.append_nil]
        exact ih h.1 hpost.1

/-- At the end of a history that meets the condition, the next identifier is free exactly if no
request is a round old. -/
theorem nextIsFree_iff {tr : History} {s : Handler} (h : handler.Trace tr s)
    (hr : Respects WithinRound tr) (a : Op) : NextIsFree s a ↔ WithinRound tr a := by
  cases a with
  | registerRequest data =>
      constructor
      · intro hfree pre data' id post he hpost
        subst he
        obtain ⟨hlt, hid⟩ := requestID_since h
        have hold := young_of_respects hr hpost
        by_contra hge
        -- the request is exactly one round old, so its identifier is the next
        have hlen : (issued post).length + 1 = maxUint32 := by omega
        refine pending_of_not_ended h hpost ?_
        rw [NextIsFree, hid, Nat.mod_add_mod, Nat.add_assoc, hlen, Nat.add_mod_right,
          Nat.mod_eq_of_lt hlt] at hfree
        exact hfree
      · intro hround
        by_contra hused
        obtain ⟨id, hid⟩ : ∃ id : Nat, id = (s.requestID + 1) % maxUint32 := ⟨_, rfl⟩
        rw [NextIsFree, ← hid] at hused
        obtain ⟨pre, data', post, rfl, hpost⟩ := pending_since h hused
        obtain ⟨hlt, hcount⟩ := requestID_since h
        have hyoung := hround pre data' id post rfl hpost
        -- between 1 and `LB_MAX_UINT32 - 1` registrations do not lead back to `id`
        rw [hcount, Nat.mod_add_mod] at hid
        unfold maxUint32 at hid hlt hyoung
        omega
  | serveRequest id v => exact Iff.rfl
  | waitRequest id k timeout => exact Iff.rfl
  | unregisterRequest id => exact Iff.rfl
  | isRequestReady id => exact Iff.rfl

theorem guarded_nextIsFree_iff {tr : History} {s : Handler} (h : handler.Trace tr s) :
    handler.Guarded NextIsFree tr ↔ Respects WithinRound tr := by
  induction h with
  | nil =>
      refine iff_of_true ?_ respects_nil
      intro pre a b post s he
      simp at he
  | snoc ht _ ih =>
      rw [Machine.guarded_snoc ht, respects_snoc, ih]
      exact and_congr_right fun hr => nextIsFree_iff ht hr _

/-- **Requests and records stay accounted for exactly as long as no request is pending for a
round of the counter.** -/
theorem identifiers_unique_iff {tr : History} {s : Handler} (h : handler.Trace tr s) :
    handler.Always Accounted tr ↔ Respects WithinRound tr :=
  (accounted_iff_nextIsFree h).trans (guarded_nextIsFree_iff h)

theorem identifiers_unique_reused :
    ∃ tr s, handler.Trace tr s ∧ Respects WithinRound tr ∧ handler.Always Accounted tr ∧
      s.requestID = 4 ∧ s.requests 3 = some 1 ∧ s.requests 4 = some 0 := by
  let as : List Op := [.registerRequest 7, .registerRequest 8, .serveRequest 2 (.rBool true),
    .waitRequest 2 .bool timeoutIndefinite, .registerRequest 9]
  have htrace := Machine.Trace.of_run (M := handler) as rfl
  have hguard := Machine.guarded_of_run (M := handler) (G := NextIsFree) as rfl (by decide)
  have hround := (guarded_nextIsFree_iff htrace).mp hguard
  exact ⟨_, _, htrace, hround, (identifiers_unique_iff htrace).mpr hround, rfl, rfl, rfl⟩

/-! ## A request that is pending for a round -/

/-- Request 2 is pending with record 0, and the counter is `n` registrations beyond 3; record 1
is free. -/
structure Waiting (n : Nat) (s : Handler) : Prop where
  requestID : s.requestID = (n + 3) % maxUint32
  requests : s.requests = Function.update (fun _ => none) 2 (some 0)
  free : s.freeRecords = [1]
  allocated : s.allocated = 2
  data : (s.records 0).data = 7

/-- Request 2 is registered, and another request is registered and unregistered. -/
theorem waiting_first : ∃ tr s, handler.Trace tr s ∧ Waiting 0 s := by
  refine ⟨_, _, Machine.Trace.of_run (M := handler)
    [.registerRequest 7, .registerRequest 8, .unregisterRequest 3] rfl, rfl, ?_, rfl, rfl, rfl⟩
  let pending : RequestID → Option RecordPtr := Function.update (fun _ => none) 2 (some 0)
  show Function.update (Function.update pending 3 (some 1)) 3 none = pending
  rw [Function.update_idem]
  exact Function.update_eq_self_iff.mpr rfl

/-- The next registration takes the free record. -/
theorem Waiting.register {n : Nat} {s : Handler} (h : Waiting n s) (data : Nat) :
    s.registerRequest data = ((n + 4) % maxUint32,
      { s with
        requestID := (n + 4) % maxUint32
        requests := Function.update s.requests ((n + 4) % maxUint32) (some 1)
        freeRecords := []
        records := Function.update s.records 1 { s.records 1 with data := data } }) := by
  have hid : (s.requestID + 1) % maxUint32 = (n + 4) % maxUint32 := by
    rw [h.requestID, Nat.mod_add_mod]
  simp only [Handler.registerRequest, Handler.takeRecord, h.free, Handler.setRecord, hid]

/-- If another request is registered and unregistered, only the counter moves on. -/
theorem Waiting.next {n : Nat} {s : Handler} (h : Waiting n s) (hn : n + 4 < maxUint32 + 2) :
    Waiting (n + 1) ((s.registerRequest 8).2.unregisterRequest ((n + 4) % maxUint32)) := by
  have hne : 2 ≠ (n + 4) % maxUint32 := by
    unfold maxUint32 at hn ⊢
    omega
  rw [h.register 8, unregisterRequest_some (Function.update_self _ _ _)]
  refine ⟨rfl, ?_, rfl, h.allocated, ?_⟩
  · show Function.update (Function.update s.requests _ (some 1)) _ none = _
    rw [Function.update_idem, h.requests, Function.update_eq_self_iff,
      Function.update_of_ne hne.symm]
  · show (Function.update s.records 1 { s.records 1 with data := 8 } 0).data = 7
    rw [Function.update_of_ne Nat.zero_ne_one, h.data]

theorem step_register {s s' : Handler} {data : Nat} {id : RequestID}
    (h : s.registerRequest data = (id, s')) :
    handler.step s (.registerRequest data) = some (.registered id, s') := by
  simp only [handler, h]

/-- The counter reaches every value before 2 comes round again, and request 2 is pending still. -/
theorem waiting_reached (n : Nat) (hn : n + 3 < maxUint32 + 2) :
    ∃ tr s, handler.Trace tr s ∧ Waiting n s := by
  induction n with
  | zero => exact waiting_first
  | succ n ih =>
      obtain ⟨tr, s, ht, hw⟩ := ih (by omega)
      exact ⟨_, _, (ht.snoc (step_register rfl)).snoc
        (a := .unregisterRequest ((n + 4) % maxUint32)) rfl, hw.next hn⟩

/-- The registration after a whole round of the counter returns the identifier of a request that
is pending: the entry of that request leads to another record with other data now, and its own
record is neither pending nor free. -/
theorem pending_request_overwritten :
    ∃ tr s s', handler.Trace tr s ∧ s.requests 2 = some 0 ∧ (s.records 0).data = 7 ∧
      handler.step s (.registerRequest 9) = some (.registered 2, s') ∧
      s'.requests 2 = some 1 ∧ (s'.records 1).data = 9 ∧
      0 < s'.allocated ∧ 0 ∉ s'.freeRecords ∧ ∀ id, s'.requests id ≠ some 0 := by
  obtain ⟨tr, s, ht, hw⟩ := waiting_reached (maxUint32 - 2) (by decide)
  have hid : (maxUint32 - 2 + 4) % maxUint32 = 2 := by decide
  have hreg := hw.register 9
  rw [hid, hw.requests, Function.update_idem] at hreg
  refine ⟨tr, s, _, ht, ?_, hw.data, step_register hreg, ?_, ?_, ?_, List.not_mem_nil, ?_⟩
  · rw [hw.requests, Function.update_self]
  · show Function.update (fun _ => none) 2 (some 1) 2 = some 1
    rw [Function.update_self]
  · show (Function.update s.records 1 { s.records 1 with data := 9 } 1).data = 9
    rw [Function.update_self]
  · show 0 < s.allocated
    rw [hw.allocated]
    exact Nat.two_pos
  · intro id (hid0 : Function.update (fun _ => none) 2 (some 1) id = some 0)
    rcases PartialMap.update_some_eq.mp hid0 with ⟨-, h01⟩ | ⟨-, hnone⟩
    · exact Nat.zero_ne_one h01
    · cases hnone

end Lunchbox.RequestHandler
