import Lunchbox.RequestHandler.Phases

set_option autoImplicit false

/-! # Pairing of requests and answers

Runs without `unregisterRequest`, in which every request is served at most once and fewer than
`LB_MAX_UINT32` requests are registered. Identifiers are then not used again (`Ledger`), so the
phases of a request are passed once and in order, and every record is pending or free.
-/

namespace Lunchbox.RequestHandler

open StateMachine

/-! ## The runs -/

/-- The identifiers returned so far. -/
def issued (tr : History) : List RequestID :=
  tr.filterMap fun
    | (.registerRequest _, .registered id) => some id
    | _ => none

@[simp] theorem issued_append (pre post : History) :
    issued (pre ++ post) = issued pre ++ issued post :=
  List.filterMap_append

theorem issued_of_ne {a : Op} {b : Output} (h : ∀ data, a ≠ .registerRequest data) :
    issued [(a, b)] = [] := by
  cases a with
  | registerRequest data => exact absurd rfl (h data)
  | serveRequest id v => rfl
  | waitRequest id k timeout => rfl
  | unregisterRequest id => rfl
  | isRequestReady id => rfl

/-- At most one `serveRequest` for an identifier, of the type that the waits for it expect; no
`unregisterRequest`, and fewer than `LB_MAX_UINT32` registrations. -/
def Paired (tr : History) : Op → Prop
  | .registerRequest _ => (issued tr).length + 1 < maxUint32
  | .serveRequest id _ => ∀ v b, (.serveRequest id v, b) ∉ tr
  | .waitRequest id k _ => ∀ v b, (.serveRequest id v, b) ∈ tr → k = .none ∨ v.kind = k
  | .unregisterRequest _ => False
  | .isRequestReady _ => True

theorem served_mem {tr : History} {id : RequestID} {v : Result} (h : phase tr id = .served v) :
    ∃ b, (.serveRequest id v, b) ∈ tr := by
  rcases foldl_served h with h | h
  · cases h
  · exact h

theorem Paired.keepsServed (tr : History) (a : Op) (h : Paired tr a) : KeepsServed tr a := by
  cases a with
  | serveRequest id w =>
      intro v hv
      obtain ⟨b, hb⟩ := served_mem hv
      exact h v b hb
  | unregisterRequest id => exact h.elim
  | registerRequest data => trivial
  | waitRequest id k timeout => trivial
  | isRequestReady id => trivial

/-! ## What an operation does to the records -/

/-- An operation that registers nothing writes to records and unregisters requests. -/
inductive Shrinks (s : Handler) : Handler → Prop
  | refl : Shrinks s s
  | setRecord {t : Handler} (h : Shrinks s t) (r : RecordPtr) (x : Record) :
      Shrinks s (t.setRecord r x)
  | unregister {t : Handler} (h : Shrinks s t) (id : RequestID) :
      Shrinks s (t.unregisterRequest id)

theorem wait_shrinks {s s' : Handler} {id : RequestID} {timeout : Nat} {x : Option (Option Result)}
    (h : s.waitRequest id timeout = some (x, s')) : Shrinks s s' := by
  cases hid : s.requests id with
  | none =>
      rw [waitRequest_absent hid] at h
      cases h
      exact .refl
  | some r =>
      cases hl : (s.records r).locked with
      | true =>
          rw [waitRequest_locked hid hl] at h
          split_ifs at h
          cases h
          exact .refl
      | false =>
          rw [waitRequest_unlocked hid hl] at h
          cases h
          exact (Shrinks.refl.setRecord r _).unregister id

theorem serve_shrinks (s : Handler) (id : RequestID) (v : Result) :
    Shrinks s (s.serveRequest id v) := by
  unfold Handler.serveRequest
  cases s.requests id with
  | none => exact .refl
  | some r =>
      show Shrinks s (s.complete r v)
      rw [complete_eq]
      exact Shrinks.refl.setRecord r _

/-- **What one step does.** -/
theorem step_cases {s s' : Handler} {a : Op} {b : Output} (hs : handler.step s a = some (b, s')) :
    (∃ data id, a = .registerRequest data ∧ b = .registered id ∧
      s.registerRequest data = (id, s')) ∨
    (Shrinks s s' ∧ ∀ data, a ≠ .registerRequest data) := by
  cases a with
  | registerRequest data =>
      simp only [handler, Option.some.injEq, Prod.mk.injEq] at hs
      obtain ⟨rfl, rfl⟩ := hs
      exact Or.inl ⟨data, _, rfl, rfl, rfl⟩
  | serveRequest id v =>
      simp only [handler, Option.some.injEq, Prod.mk.injEq] at hs
      obtain ⟨rfl, rfl⟩ := hs
      exact Or.inr ⟨serve_shrinks s id v, fun _ => Op.noConfusion⟩
  | waitRequest id k timeout =>
      refine Or.inr ⟨?_, fun _ => Op.noConfusion⟩
      obtain ⟨⟨x, t⟩, hw, he⟩ := Option.map_eq_some_iff.mp hs
      cases x <;> cases he <;> exact wait_shrinks hw
  | unregisterRequest id =>
      simp only [handler, Option.some.injEq, Prod.mk.injEq] at hs
      obtain ⟨rfl, rfl⟩ := hs
      exact Or.inr ⟨Shrinks.refl.unregister id, fun _ => Op.noConfusion⟩
  | isRequestReady id =>
      simp only [handler, isRequestReady_eq, Option.some.injEq, Prod.mk.injEq] at hs
      obtain ⟨rfl, rfl⟩ := hs
      exact Or.inr ⟨.refl, fun _ => Op.noConfusion⟩

/-- What an operation that registers nothing does to the map and the free list: entries may
leave the map, and their records are free then. -/
structure Retires (s s' : Handler) : Prop where
  requestID : s'.requestID = s.requestID
  allocated : s'.allocated = s.allocated
  requests : ∀ id r, s'.requests id = some r → s.requests id = some r
  retired : ∀ id r, s.requests id = some r → s'.requests id = some r ∨ r ∈ s'.freeRecords
  free : ∀ r, r ∈ s.freeRecords → r ∈ s'.freeRecords

theorem Retires.refl (s : Handler) : Retires s s :=
  ⟨rfl, rfl, fun _ _ h => h, fun _ _ h => Or.inl h, fun _ h => h⟩

theorem Retires.setRecord {s t : Handler} (h : Retires s t) (r : RecordPtr) (x : Record) :
    Retires s (t.setRecord r x) :=
  ⟨h.requestID, h.allocated, h.requests, h.retired, h.free⟩

theorem Retires.unregister {s t : Handler} (h : Retires s t) (id : RequestID) :
    Retires s (t.unregisterRequest id) := by
  refine ⟨by rw [unregisterRequest_requestID, h.requestID],
    by rw [unregisterRequest_allocated, h.allocated], ?_, ?_, ?_⟩
  · intro j q hj
    rw [unregisterRequest_requests] at hj
    exact h.requests j q (PartialMap.update_none_eq.mp hj).2
  · intro j q hj
    rw [unregisterRequest_requests, mem_unregisterRequest_free]
    rcases h.retired j q hj with hj | hfree
    · by_cases hji : j = id
      · exact Or.inr (Or.inr (hji ▸ hj))
      · exact Or.inl ((Function.update_of_ne hji _ _).trans hj)
    · exact Or.inr (Or.inl hfree)
  · intro q hq
    exact mem_unregisterRequest_free.mpr (Or.inl (h.free q hq))

theorem Shrinks.retires {s s' : Handler} (h : Shrinks s s') : Retires s s' := by
  induction h with
  | refl => exact Retires.refl s
  | setRecord _ r x ih => exact ih.setRecord r x
  | unregister _ id ih => exact ih.unregister id

/-- Every record is pending or free. -/
def NoneLost (s : Handler) : Prop :=
  ∀ r, r < s.allocated → r ∈ s.freeRecords ∨ ∃ id, s.requests id = some r

theorem NoneLost.retire {s s' : Handler} (h : NoneLost s) (hs : Retires s s') : NoneLost s' := by
  intro q hq
  rw [hs.allocated] at hq
  rcases h q hq with hfree | ⟨j, hj⟩
  · exact Or.inl (hs.free q hfree)
  · rcases hs.retired j q hj with h | h
    · exact Or.inr ⟨j, h⟩
    · exact Or.inl h

/-- A registration loses no record if its identifier was not in the map. -/
theorem NoneLost.register {s s' : Handler} {id : RequestID} {r : RecordPtr} (h : NoneLost s)
    (hr : Filed s s' id r) (hnew : s.requests id = none) : NoneLost s' := by
  intro q hq
  by_cases hqr : q = r
  · exact Or.inr ⟨id, by rw [hqr, hr.requests, Function.update_self]⟩
  rcases h q (((hr.allocated q).mp hq).resolve_right hqr) with hfree | ⟨j, hj⟩
  · exact Or.inl (hr.mem_free hfree hqr)
  · have hji : j ≠ id := by
      rintro rfl
      rw [hnew] at hj
      cases hj
    exact Or.inr ⟨j, by rw [hr.requests, Function.update_of_ne hji, hj]⟩

/-! ## Identifiers and records -/

/-- The identifiers count up from 2, the pending ones were issued, and every record is pending
or free. -/
structure Ledger (tr : History) (s : Handler) : Prop where
  few : (issued tr).length < maxUint32
  counted : issued tr = (List.range (issued tr).length).map fun j => (j + 2) % maxUint32
  next : s.requestID = ((issued tr).length + 1) % maxUint32
  known : ∀ id r, s.requests id = some r → id ∈ issued tr
  covered : ∀ r, r < s.allocated → r ∈ s.freeRecords ∨ ∃ id, s.requests id = some r

theorem nodup_ids {n : Nat} (h : n < maxUint32) :
    ((List.range n).map fun j => (j + 2) % maxUint32).Nodup := by
  refine List.nodup_range.map_on ?_
  intro i hi j hj hij
  rw [List.mem_range] at hi hj
  exact identifier_inj (hi.trans h) (hj.trans h) hij

theorem Ledger.nodup {tr : History} {s : Handler} (h : Ledger tr s) : (issued tr).Nodup := by
  rw [h.counted]
  exact nodup_ids h.few

theorem ledger_init : Ledger [] Handler.new := by
  refine ⟨by decide, rfl, rfl, ?_, ?_⟩
  · intro id r h
    cases h
  · intro r hr
    exact absurd hr (Nat.not_lt_zero r)

theorem Ledger.register {tr : History} {s s' : Handler} {data : Nat} {id : RequestID}
    {r : RecordPtr} (hl : Ledger tr s) (hr : Registered s s' id r)
    (hfew : (issued tr).length + 1 < maxUint32) :
    Ledger (tr ++ [(.registerRequest data, .registered id)]) s' := by
  have hiss : issued (tr ++ [(.registerRequest data, .registered id)]) = issued tr ++ [id] :=
    issued_append _ _
  have hid : id = ((issued tr).length + 2) % maxUint32 := by
    rw [hr.id_eq, hl.next, Nat.mod_add_mod]
  have hcount : issued tr ++ [id]
      = (List.range ((issued tr).length + 1)).map fun j => (j + 2) % maxUint32 := by
    rw [List.range_succ, List.map_append, ← hl.counted, List.map_singleton, ← hid]
  -- the new identifier is none of the earlier ones, so its entry in the map was empty
  have hnew : s.requests id = none := by
    have hnd := nodup_ids hfew
    rw [← hcount, List.nodup_append] at hnd
    cases hq : s.requests id with
    | none => rfl
    | some q => exact absurd rfl (hnd.2.2 id (hl.known id q hq) id (List.mem_singleton_self id))
  constructor
  · rw [hiss, List.length_append]
    exact hfew
  · rw [hiss, List.length_append]
    exact hcount
  · rw [hr.requestID, hiss, List.length_append, hid]
    rfl
  · intro j q hj
    rw [hiss, List.mem_append, List.mem_singleton]
    rw [hr.requests] at hj
    rcases PartialMap.update_some_eq.mp hj with ⟨hji, -⟩ | ⟨-, hj⟩
    · exact Or.inr hji
    · exact Or.inl (hl.known j q hj)
  · exact NoneLost.register hl.covered hr.filed hnew

theorem Ledger.retire {tr : History} {s s' : Handler} {e : Op × Output} (hl : Ledger tr s)
    (hs : Retires s s') (he : issued [e] = []) : Ledger (tr ++ [e]) s' := by
  have hiss : issued (tr ++ [e]) = issued tr := by rw [issued_append, he, List.append_nil]
  constructor
  · rw [hiss]
    exact hl.few
  · rw [hiss]
    exact hl.counted
  · rw [hiss, hs.requestID]
    exact hl.next
  · intro j q hj
    rw [hiss]
    exact hl.known j q (hs.requests j q hj)
  · exact NoneLost.retire hl.covered hs

theorem ledger_step {tr : History} {s s' : Handler} {a : Op} {b : Output} (hi : Inv tr s)
    (hl : Ledger tr s) (hC : Paired tr a) (hs : handler.step s a = some (b, s')) :
    Ledger (tr ++ [(a, b)]) s' := by
  rcases step_cases hs with ⟨data, id, rfl, rfl, hreg⟩ | ⟨hsh, hne⟩
  · obtain ⟨r, hr⟩ := registerRequest_spec hi.pool hreg
    exact hl.register hr hC
  · exact hl.retire hsh.retires (issued_of_ne hne)

/-- **Runs keep the invariants.** -/
theorem paired_inv {tr : History} {s : Handler} (h : handler.Trace tr s)
    (hC : Respects Paired tr) : Inv tr s ∧ Ledger tr s := by
  refine h.inv (fun tr s => Inv tr s ∧ Ledger tr s) ⟨inv_init, ledger_init⟩ ?_ hC
  rintro tr s a b s' - - hP ⟨hi, hl⟩ hs
  exact ⟨inv_step hi (hP.keepsServed tr a) hs, ledger_step hi hl hP hs⟩

/-! ## The phases in such a run -/

/-- Some wait for `id` has succeeded. -/
def Collected (tr : History) (id : RequestID) : Prop :=
  ∃ k timeout x, (.waitRequest id k timeout, .waited true x) ∈ tr

/-- An event that registers, serves, collects or unregisters other requests only. -/
structure Idle (id : RequestID) (e : Op × Output) : Prop where
  register : ∀ data, e ≠ (.registerRequest data, .registered id)
  serve : ∀ v b, e ≠ (.serveRequest id v, b)
  wait : ∀ k timeout x, e ≠ (.waitRequest id k timeout, .waited true x)
  unregister : ∀ b, e ≠ (.unregisterRequest id, b)

theorem Idle.phaseStep {id : RequestID} {e : Op × Output} (h : Idle id e) (ph : Phase) :
    phaseStep id ph e = ph := by
  unfold RequestHandler.phaseStep
  split
  · exact if_neg fun hj => h.register _ (by rw [hj])
  · exact if_neg fun hj => h.serve _ _ (by rw [hj.1])
  · exact if_neg fun hj => h.wait _ _ _ (by rw [hj])
  · exact if_neg fun hj => h.unregister _ (by rw [hj])
  · rfl

theorem foldl_stays {id : RequestID} {ph : Phase} {post : History}
    (h : ∀ e ∈ post, phaseStep id ph e = ph) : post.foldl (phaseStep id) ph = ph := by
  induction post with
  | nil => rfl
  | cons e post ih =>
      rw [List.foldl_cons, h e List.mem_cons_self]
      exact ih fun e he => h e (List.mem_cons_of_mem _ he)

theorem mem_issued {tr : History} {id : RequestID} :
    id ∈ issued tr ↔ ∃ data, (.registerRequest data, .registered id) ∈ tr := by
  unfold issued
  rw [List.mem_filterMap]
  constructor
  · rintro ⟨e, he, hid⟩
    split at hid
    · cases hid
      exact ⟨_, he⟩
    · cases hid
  · rintro ⟨data, he⟩
    exact ⟨_, he, rfl⟩

/-- After its registration a request is only concerned by serving it and by waiting for it. -/
theorem idle_after {pre post : History} {s : Handler} {id : RequestID} {e : Op × Output}
    (h : handler.Trace (pre ++ post) s) (hC : Respects Paired (pre ++ post))
    (hid : id ∈ issued pre) (he : e ∈ post) (hserve : ∀ v b, e ≠ (.serveRequest id v, b))
    (hwait : ∀ k timeout x, e ≠ (.waitRequest id k timeout, .waited true x)) : Idle id e := by
  refine ⟨?_, hserve, hwait, ?_⟩
  · rintro data rfl
    have hnd := (paired_inv h hC).2.nodup
    rw [issued_append, List.nodup_append] at hnd
    exact hnd.2.2 id hid id (mem_issued.mpr ⟨data, he⟩) rfl
  · rintro b rfl
    obtain ⟨p, hp⟩ := hC.of_mem he
    exact hp

/-- A successful wait finds its request served. -/
theorem wait_served {pre post : History} {s : Handler} {id : RequestID} {k : Kind}
    {timeout : Nat} {x : Option Result}
    (h : handler.Trace (pre ++ (.waitRequest id k timeout, .waited true x) :: post) s)
    (hC : Respects Paired (pre ++ (.waitRequest id k timeout, .waited true x) :: post)) :
    ∃ v, phase pre id = .served v ∧ x = k.read (some v) := by
  obtain ⟨s0, s1, h0, hs⟩ := h.split
  have hw := wait_step (paired_inv h0 hC.left).1 id k timeout
  rw [hs] at hw
  cases hw with
  | served v r hph hr => exact ⟨v, hph, rfl⟩

/-- A request is pending from its registration until it is served. -/
theorem pending_of_issued {tr : History} {s : Handler} {id : RequestID} (h : handler.Trace tr s)
    (hC : Respects Paired tr) (hid : id ∈ issued tr)
    (hserve : ∀ v b, (.serveRequest id v, b) ∉ tr) : phase tr id = .pending := by
  obtain ⟨data, hmem⟩ := mem_issued.mp hid
  obtain ⟨p, q, rfl⟩ := List.append_of_mem hmem
  have hreg : phaseStep id (phase p id) (.registerRequest data, .registered id) = .pending :=
    if_pos rfl
  rw [phase_append, List.foldl_cons, hreg]
  rw [List.append_cons] at h hC hserve
  refine foldl_stays fun e he => Idle.phaseStep (idle_after h hC ?_ he ?_ ?_) _
  · exact mem_issued.mpr ⟨data, List.mem_append_right p (List.mem_singleton_self _)⟩
  · rintro v b rfl
    exact hserve v b (List.mem_append_right _ he)
  · rintro k timeout x rfl
    -- a successful wait needs an earlier `serveRequest`
    obtain ⟨q1, q2, rfl⟩ := List.append_of_mem he
    rw [← List.append_assoc] at h hC hserve
    obtain ⟨v, hv, -⟩ := wait_served h hC
    obtain ⟨b, hb⟩ := served_mem hv
    exact hserve v b (List.mem_append_left _ hb)

/-- A served request stays served until a wait for it succeeds, and is gone after that. -/
theorem phase_after_serve {pre mid : History} {s : Handler} {id : RequestID} {v : Result}
    {b : Output} (h : handler.Trace (pre ++ (.serveRequest id v, b) :: mid) s)
    (hC : Respects Paired (pre ++ (.serveRequest id v, b) :: mid)) (hid : id ∈ issued pre) :
    (¬ Collected mid id → phase (pre ++ (.serveRequest id v, b) :: mid) id = .served v) ∧
      (Collected mid id → phase (pre ++ (.serveRequest id v, b) :: mid) id = .absent) := by
  have hnone : ∀ w c, (.serveRequest id w, c) ∉ pre := hC pre _ b mid rfl
  have hserved : phase (pre ++ [(.serveRequest id v, b)]) id = .served v := by
    obtain ⟨s0, s1, h0, -⟩ := h.split
    rw [phase_snoc, pending_of_issued h0 hC.left hid hnone]
    exact if_pos ⟨rfl, by decide⟩
  rw [List.append_cons] at h hC ⊢
  have hid' : id ∈ issued (pre ++ [(.serveRequest id v, b)]) := by
    rw [issued_append]
    exact List.mem_append_left _ hid
  -- no second call serves the request, so only a wait can change its phase
  have honce : ∀ w c, (.serveRequest id w, c) ∉ mid := by
    intro w c hw
    obtain ⟨p, hp⟩ := hC.of_mem hw
    exact hp v b (by simp)
  constructor
  · intro hcol
    rw [phase_append, hserved]
    refine foldl_stays fun e he => Idle.phaseStep (idle_after h hC hid' he ?_ ?_) _
    · rintro w c rfl
      exact honce w c he
    · rintro k timeout x rfl
      exact hcol ⟨k, timeout, x, he⟩
  · rintro ⟨k, timeout, x, hw⟩
    obtain ⟨m1, m2, rfl⟩ := List.append_of_mem hw
    have hgone : ∀ ph, phaseStep id ph (.waitRequest id k timeout, .waited true x) = .absent :=
      fun _ => if_pos rfl
    rw [← List.append_assoc, phase_append, List.foldl_cons, hgone]
    refine foldl_stays fun e he => ?_
    have hmem : e ∈ m1 ++ (.waitRequest id k timeout, .waited true x) :: m2 := by simp [he]
    by_cases hwait : ∃ k timeout x, e = (.waitRequest id k timeout, .waited true x)
    · obtain ⟨k', timeout', x', rfl⟩ := hwait
      exact if_pos rfl
    · refine Idle.phaseStep (idle_after h hC hid' hmem ?_ ?_) _
      · rintro w c rfl
        exact honce w c hmem
      · intro k' timeout' x' hx
        exact hwait ⟨k', timeout', x', hx⟩

/-! ## The pairing -/

theorem serve_done {tr : History} {s : Handler} {id : RequestID} {v : Result} {b : Output}
    (h : handler.Trace tr s) (hm : (.serveRequest id v, b) ∈ tr) : b = .done := by
  obtain ⟨p, q, rfl⟩ := List.append_of_mem hm
  obtain ⟨s0, s1, -, hs⟩ := h.split
  simp only [handler, Option.some.injEq, Prod.mk.injEq] at hs
  exact hs.1.symm

theorem read_of_kind {k : Kind} {v : Result} (h : k = .none ∨ v.kind = k) :
    k.read (some v) = if k = .none then none else some v := by
  by_cases hk : k = .none
  · rw [if_pos hk, hk]
    cases v <;> rfl
  · rw [if_neg hk, ← h.resolve_left hk]
    cases v <;> rfl

/-- Every record is pending under one identifier or free once. -/
theorem record_pending_or_free {tr : History} {s : Handler} (hi : Inv tr s) (hl : Ledger tr s)
    {r : RecordPtr} (hr : r < s.allocated) :
    (s.freeRecords.count r = 1 ∧ ∀ id, s.requests id ≠ some r) ∨
      (r ∉ s.freeRecords ∧ ∃! id, s.requests id = some r) := by
  rcases hl.covered r hr with hfree | ⟨id, hid⟩
  · refine Or.inl ⟨List.count_eq_one_of_mem hi.pool.nodup hfree, fun id hid => ?_⟩
    exact hi.pool.apart id r hid hfree
  · refine Or.inr ⟨hi.pool.apart id r hid, id, hid, fun j hj => ?_⟩
    exact hi.pool.inj j id r hj hid

/-- **Every served request is answered once, with the value it was served with.** In a run in
which requests are served at most once and never unregistered: a wait succeeds only after its
request was served, and yields that value; a served request is waited for successfully once,
and waits for it fail from then on; a failed wait and `isRequestReady` change nothing; and every
record is pending under one identifier or free once, and locked when it is free. -/
theorem request_answer_pairing {tr : History} {s : Handler} (h : handler.Trace tr s)
    (hC : Respects Paired tr) :
    (∀ pre id k timeout x post,
      tr = pre ++ (.waitRequest id k timeout, .waited true x) :: post →
        ∃ v, (.serveRequest id v, .done) ∈ pre ∧ x = if k = .none then none else some v) ∧
    (∀ pre id v mid, tr = pre ++ (.serveRequest id v, .done) :: mid → id ∈ issued pre →
      (¬ Collected mid id → ∀ k timeout, ∃ s',
        handler.step s (.waitRequest id k timeout)
          = some (.waited true (k.read (some v)), s')) ∧
      (Collected mid id → ∀ k timeout,
        handler.step s (.waitRequest id k timeout) = some (.waited false none, s))) ∧
    (∀ id k timeout x s',
      handler.step s (.waitRequest id k timeout) = some (.waited false x, s') → s' = s) ∧
    (∀ id b s', handler.step s (.isRequestReady id) = some (b, s') → s' = s) ∧
    (∀ r, r < s.allocated →
      (s.freeRecords.count r = 1 ∧ ∀ id, s.requests id ≠ some r) ∨
        (r ∉ s.freeRecords ∧ ∃! id, s.requests id = some r)) ∧
    ∀ r ∈ s.freeRecords, (s.records r).locked = true := by
  obtain ⟨hi, hl⟩ := paired_inv h hC
  refine ⟨?_, ?_, ?_, ?_, fun r hr => record_pending_or_free hi hl hr, hi.pool.locked⟩
  · rintro pre id k timeout x post rfl
    obtain ⟨v, hv, hx⟩ := wait_served h hC
    obtain ⟨b, hb⟩ := served_mem hv
    obtain ⟨s0, s1, h0, -⟩ := h.split
    have hkind := hC pre _ _ post rfl v b hb
    rw [serve_done h0 hb] at hb
    exact ⟨v, hb, hx.trans (read_of_kind hkind)⟩
  · rintro pre id v mid rfl hid
    obtain ⟨hserved, habsent⟩ := phase_after_serve h hC hid
    exact ⟨fun hcol => wait_of_served hi (hserved hcol),
      fun hcol => wait_of_absent hi (habsent hcol)⟩
  · intro id k timeout x s' hs
    exact wait_failed hi hs
  · intro id b s' hs
    simp only [handler, isRequestReady_eq, Option.some.injEq, Prod.mk.injEq] at hs
    exact hs.2.symm

/-- Two requests are outstanding, and the later one is served and waited for first. -/
def crossedHistory : History :=
  [(.registerRequest 0, .registered 2), (.registerRequest 0, .registered 3),
    (.serveRequest 3 (.rBool true), .done), (.waitRequest 2 .uint32 10, .waited false none),
    (.serveRequest 2 (.rUint32 7), .done),
    (.waitRequest 3 .bool 10, .waited true (some (.rBool true)))]

theorem request_answer_pairing_crossed :
    ∃ s, handler.Trace crossedHistory s ∧
      (∃ s', handler.step s (.waitRequest 2 .uint32 10)
        = some (.waited true (some (.rUint32 7)), s')) ∧
      handler.step s (.waitRequest 3 .bool timeoutIndefinite) = some (.waited false none, s) := by
  have h : handler.Trace crossedHistory _ :=
    Machine.Trace.of_run [.registerRequest 0, .registerRequest 0, .serveRequest 3 (.rBool true),
      .waitRequest 2 .uint32 10, .serveRequest 2 (.rUint32 7), .waitRequest 3 .bool 10] rfl
  have hC : Respects Paired crossedHistory :=
    respects_of_checks (by simp [crossedHistory, checks, Paired, issued, maxUint32, Result.kind])
  obtain ⟨-, hserved, -⟩ := request_answer_pairing h hC
  have h2 := hserved (crossedHistory.take 4) 2 (.rUint32 7) (crossedHistory.drop 5) rfl (by decide)
  have h3 := hserved (crossedHistory.take 2) 3 (.rBool true) (crossedHistory.drop 3) rfl (by decide)
  refine ⟨_, h, h2.1 ?_ .uint32 10, h3.2 ?_ .bool timeoutIndefinite⟩
  · simp [Collected, crossedHistory]
  · exact ⟨.bool, 10, some (.rBool true), by decide⟩

end Lunchbox.RequestHandler
