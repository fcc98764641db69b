import Lunchbox.Lib.PartialMap
import Lunchbox.RequestHandler.Model

set_option autoImplicit false

/-! # The pool of records

The invariant that makes it safe to use records again (`Pool`): pending requests have records of
their own, free records belong to no pending request, are in the free list once, and are
locked. Registering a request keeps it always; returning a record to the free list keeps it
if the record is locked. That records are in one place (`Separate`) is kept by every operation,
whatever the clients do.
-/

namespace Lunchbox.RequestHandler

structure Pool (s : Handler) : Prop where
  inj : ∀ id id' r, s.requests id = some r → s.requests id' = some r → id = id'
  apart : ∀ id r, s.requests id = some r → r ∉ s.freeRecords
  nodup : s.freeRecords.Nodup
  locked : ∀ r ∈ s.freeRecords, (s.records r).locked = true
  bound : ∀ id r, s.requests id = some r → r < s.allocated
  free_bound : ∀ r ∈ s.freeRecords, r < s.allocated

/-- The part of the pool that does not depend on the mutexes of the records. -/
structure Separate (s : Handler) : Prop where
  inj : ∀ id id' r, s.requests id = some r → s.requests id' = some r → id = id'
  apart : ∀ id r, s.requests id = some r → r ∉ s.freeRecords
  nodup : s.freeRecords.Nodup
  bound : ∀ id r, s.requests id = some r → r < s.allocated
  free_bound : ∀ r ∈ s.freeRecords, r < s.allocated

theorem Pool.separate {s : Handler} (h : Pool s) : Separate s :=
  ⟨h.inj, h.apart, h.nodup, h.bound, h.free_bound⟩

theorem Separate.pool {s : Handler} (h : Separate s)
    (hl : ∀ r ∈ s.freeRecords, (s.records r).locked = true) : Pool s :=
  ⟨h.inj, h.apart, h.nodup, hl, h.bound, h.free_bound⟩

theorem separate_new : Separate Handler.new := by
  constructor <;> simp [Handler.new]

theorem pool_new : Pool Handler.new := separate_new.pool (by simp [Handler.new])

/-! ## Registering -/

/-- `takeRecord` yields a record that no request uses, locked if the free ones are. -/
theorem takeRecord_spec {s s' : Handler} {r : RecordPtr} (hp : Separate s)
    (h : s.takeRecord = (r, s')) :
    (∀ id, s.requests id ≠ some r) ∧ r ∉ s'.freeRecords ∧
      s'.requests = s.requests ∧ s'.requestID = s.requestID ∧
      (∀ r', r' ≠ r → s'.records r' = s.records r') ∧ s'.freeRecords = s.freeRecords.tail ∧
      (∀ q, q < s'.allocated ↔ q < s.allocated ∨ q = r) ∧
      (r ∈ s.freeRecords ∨ s.freeRecords = [] ∧ r = s.allocated) ∧
      ((∀ q ∈ s.freeRecords, (s.records q).locked = true) → (s'.records r).locked = true) := by
  unfold Handler.takeRecord at h
  cases hf : s.freeRecords with
  | nil =>
      -- a new record is beyond those that are in use, and its constructor locks it
      simp only [hf, Prod.mk.injEq] at h
      obtain ⟨rfl, rfl⟩ := h
      refine ⟨?_, by simp [hf], rfl, rfl, ?_, by simp [hf], ?_, Or.inr ⟨rfl, rfl⟩,
        by simp [Record.new]⟩
      · intro id hid
        exact absurd (hp.bound id _ hid) (lt_irrefl _)
      · intro r' hr'
        exact setRecord_ne s Record.new hr'
      · intro q
        exact Nat.lt_succ_iff_lt_or_eq
  | cons q qs =>
      -- a free record is used as it is: that it is locked was up to its last request
      simp only [hf, Prod.mk.injEq] at h
      obtain ⟨rfl, rfl⟩ := h
      have hmem : q ∈ s.freeRecords := by rw [hf]; exact List.mem_cons_self
      have hnd := hp.nodup
      rw [hf, List.nodup_cons] at hnd
      refine ⟨?_, hnd.1, rfl, rfl, fun _ _ => rfl, rfl, ?_, Or.inl List.mem_cons_self,
        fun hl => hl q List.mem_cons_self⟩
      · intro id hid
        exact hp.apart id q hid hmem
      · intro p
        refine ⟨Or.inl, ?_⟩
        rintro (h | rfl)
        · exact h
        · exact hp.free_bound p hmem

/-- The identifiers of the first `LB_MAX_UINT32` registrations differ. -/
theorem identifier_inj {i j : Nat} (hi : i < maxUint32) (hj : j < maxUint32)
    (h : (i + 2) % maxUint32 = (j + 2) % maxUint32) : i = j := by
  have hij : i ≡ j [MOD maxUint32] := Nat.ModEq.add_right_cancel' 2 h
  exact hij.eq_of_lt_of_lt hi hj

/-- What `registerRequest` does to the handler: a locked record that no request used is put
under the new identifier, and nothing else changes. -/
structure Registered (s s' : Handler) (id : RequestID) (r : RecordPtr) : Prop where
  id_eq : id = (s.requestID + 1) % maxUint32
  requestID : s'.requestID = id
  requests : s'.requests = Function.update s.requests id (some r)
  fresh : ∀ id, s.requests id ≠ some r
  locked : (s'.records r).locked = true
  records : ∀ r', r' ≠ r → s'.records r' = s.records r'
  free : s'.freeRecords = s.freeRecords.tail
  not_free : r ∉ s'.freeRecords
  allocated : ∀ q, q < s'.allocated ↔ q < s.allocated ∨ q = r
  from_free : r ∈ s.freeRecords ∨ s.freeRecords = [] ∧ r = s.allocated

/-- The same, where the record may be an unlocked one. -/
structure Filed (s s' : Handler) (id : RequestID) (r : RecordPtr) : Prop where
  id_eq : id = (s.requestID + 1) % maxUint32
  requestID : s'.requestID = id
  requests : s'.requests = Function.update s.requests id (some r)
  fresh : ∀ id, s.requests id ≠ some r
  records : ∀ r', r' ≠ r → s'.records r' = s.records r'
  free : s'.freeRecords = s.freeRecords.tail
  not_free : r ∉ s'.freeRecords
  allocated : ∀ q, q < s'.allocated ↔ q < s.allocated ∨ q = r
  from_free : r ∈ s.freeRecords ∨ s.freeRecords = [] ∧ r = s.allocated

theorem Registered.filed {s s' : Handler} {id : RequestID} {r : RecordPtr}
    (h : Registered s s' id r) : Filed s s' id r :=
  ⟨h.id_eq, h.requestID, h.requests, h.fresh, h.records, h.free, h.not_free, h.allocated,
    h.from_free⟩

theorem registerRequest_filed {s s' : Handler} {data : Nat} {id : RequestID} (hp : Separate s)
    (h : s.registerRequest data = (id, s')) :
    ∃ r, Filed s s' id r ∧
      ((∀ q ∈ s.freeRecords, (s.records q).locked = true) → (s'.records r).locked = true) := by
  unfold Handler.registerRequest at h
  rcases ht : s.takeRecord with ⟨r, t⟩
  obtain ⟨hfresh, hnf, hreq, hid, hrec, hfree, hal, hfrom, hlock⟩ := takeRecord_spec hp ht
  simp only [ht, Prod.mk.injEq] at h
  obtain ⟨rfl, rfl⟩ := h
  refine ⟨r, ⟨?_, rfl, ?_, hfresh, ?_, hfree, hnf, hal, hfrom⟩, ?_⟩
  · rw [setRecord_requestID, hid]
  · rw [setRecord_requests, hreq]
  · intro r' hr'
    rw [← hrec r' hr']
    exact setRecord_ne t _ hr'
  · intro hl
    simpa using hlock hl

theorem registerRequest_spec {s s' : Handler} {data : Nat} {id : RequestID} (hp : Pool s)
    (h : s.registerRequest data = (id, s')) : ∃ r, Registered s s' id r := by
  obtain ⟨r, hr, hlock⟩ := registerRequest_filed hp.separate h
  exact ⟨r, hr.id_eq, hr.requestID, hr.requests, hr.fresh, hlock hp.locked, hr.records, hr.free,
    hr.not_free, hr.allocated, hr.from_free⟩

theorem Filed.mem_free {s s' : Handler} {id : RequestID} {r q : RecordPtr}
    (h : Filed s s' id r) (hq : q ∈ s.freeRecords) (hne : q ≠ r) : q ∈ s'.freeRecords := by
  have hr := h.not_free
  rw [h.free] at hr ⊢
  cases hf : s.freeRecords with
  | nil => rw [hf] at hq; cases hq
  | cons p ps =>
      have hfrom := h.from_free
      rw [hf, List.mem_cons] at hfrom hq
      rw [hf, List.tail_cons] at hr
      have hrp : r = p :=
        (hfrom.resolve_right fun h => List.cons_ne_nil p ps h.1).resolve_right hr
      exact hq.resolve_left fun h => hne (h.trans hrp.symm)

theorem Filed.free_sub {s s' : Handler} {id : RequestID} {r q : RecordPtr}
    (h : Filed s s' id r) (hq : q ∈ s'.freeRecords) : q ∈ s.freeRecords := by
  rw [h.free] at hq
  exact List.mem_of_mem_tail hq

theorem Separate.register {s s' : Handler} {id : RequestID} {r : RecordPtr} (hp : Separate s)
    (h : Filed s s' id r) : Separate s' := by
  constructor
  · rw [h.requests]
    exact PartialMap.Injective.put hp.inj h.fresh id
  · intro j q hj hq
    rw [h.requests] at hj
    rcases PartialMap.update_some_eq.mp hj with ⟨-, rfl⟩ | ⟨-, hj1⟩
    · exact h.not_free hq
    · exact hp.apart j q hj1 (h.free_sub hq)
  · rw [h.free]
    exact hp.nodup.sublist (List.tail_sublist _)
  · intro j q hj
    rw [h.allocated]
    rw [h.requests] at hj
    rcases PartialMap.update_some_eq.mp hj with ⟨-, rfl⟩ | ⟨-, hj1⟩
    · exact Or.inr rfl
    · exact Or.inl (hp.bound j q hj1)
  · intro q hq
    rw [h.allocated]
    exact Or.inl (hp.free_bound q (h.free_sub hq))

/-- Registering keeps the pool. -/
theorem Pool.register {s s' : Handler} {id : RequestID} {r : RecordPtr} (hp : Pool s)
    (h : Registered s s' id r) : Pool s' := by
  refine (hp.separate.register h.filed).pool fun q hq => ?_
  have hne : q ≠ r := fun he => h.not_free (he ▸ hq)
  rw [h.records q hne]
  exact hp.locked q (h.filed.free_sub hq)

/-! ## Unregistering and writing records -/

theorem Separate.unregister {s : Handler} (hp : Separate s) (id : RequestID) :
    Separate (s.unregisterRequest id) := by
  unfold Handler.unregisterRequest
  cases hid : s.requests id with
  | none => exact hp
  | some r =>
      constructor
      · exact PartialMap.Injective.remove hp.inj id
      · intro j q hj hq
        obtain ⟨hji, hj1⟩ := PartialMap.update_none_eq.mp hj
        rcases List.mem_cons.mp hq with rfl | hq
        · exact hji (hp.inj j id q hj1 hid)
        · exact hp.apart j q hj1 hq
      · exact List.nodup_cons.mpr ⟨hp.apart id r hid, hp.nodup⟩
      · intro j q hj
        exact hp.bound j q (PartialMap.update_none_eq.mp hj).2
      · intro q hq
        rcases List.mem_cons.mp hq with rfl | hq
        · exact hp.bound id q hid
        · exact hp.free_bound q hq

/-- Unregistering keeps the pool if the record it gives back is locked. -/
theorem Pool.unregister {s : Handler} {id : RequestID} (hp : Pool s)
    (hl : ∀ r, s.requests id = some r → (s.records r).locked = true) :
    Pool (s.unregisterRequest id) := by
  refine (hp.separate.unregister id).pool fun q hq => ?_
  rw [unregisterRequest_records]
  rcases mem_unregisterRequest_free.mp hq with hq | hq
  · exact hp.locked q hq
  · exact hl q hq

theorem Separate.setRecord {s : Handler} (hp : Separate s) (r : RecordPtr) (x : Record) :
    Separate (s.setRecord r x) :=
  ⟨hp.inj, hp.apart, hp.nodup, hp.bound, hp.free_bound⟩

/-- Writing to a record that is not free keeps the pool. -/
theorem Pool.setRecord {s : Handler} {r : RecordPtr} (hp : Pool s) (hr : r ∉ s.freeRecords)
    (x : Record) : Pool (s.setRecord r x) := by
  refine (hp.separate.setRecord r x).pool fun q hq => ?_
  have hne : q ≠ r := fun he => hr (he ▸ hq)
  rw [setRecord_ne s x hne]
  exact hp.locked q hq

theorem complete_eq (s : Handler) (r : RecordPtr) (v : Result) :
    s.complete r v = s.setRecord r ⟨false, (s.records r).data, some v⟩ := by
  unfold Handler.complete Handler.unlock
  rw [setRecord_same, Handler.setRecord, Handler.setRecord, Handler.setRecord,
    Function.update_idem]

end Lunchbox.RequestHandler
