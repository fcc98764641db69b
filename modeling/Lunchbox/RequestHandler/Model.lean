import Mathlib.Tactic

set_option autoImplicit false

/-! # `RequestHandler`

The request handler (`requestHandler.cpp`). A request is a `Record` with a mutex, which is
locked while the request is unserved: `serveRequest` stores the result and unlocks it,
`waitRequest` locks it again, reads the result and unregisters the request. Pending records are
in the map `requests`, unregistered ones are kept in the list `freeRecords` and used again.

The records live in a heap, a `Record*` is an index into it. The functions below are the
critical sections under the handler's lock and the accesses to a record outside it; the
operations are composed of them, whole in this file and step by step in
`RequestHandler/Interleaving.lean`.
-/

namespace Lunchbox.RequestHandler

/-- `LB_MAX_UINT32` -/
def maxUint32 : Nat := 0xfffffff0

/-- `LB_TIMEOUT_INDEFINITE` -/
def timeoutIndefinite : Nat := 0xffffffff

abbrev RequestID := Nat
abbrev RecordPtr := Nat

/-! ## Results -/

/-- `Record::Result`: a union is the member that was stored last. -/
inductive Result
  | rPointer (p : Nat)
  | rUint32 (v : Nat)
  | rBool (b : Bool)
  | rUint128 (low high : Nat)
  deriving DecidableEq, Repr

/-- The overloads of `waitRequest`, by the type of their output argument. -/
inductive Kind
  | pointer | uint32 | bool | uint128 | none
  deriving DecidableEq, Repr

def Result.kind : Result → Kind
  | .rPointer _ => .pointer
  | .rUint32 _ => .uint32
  | .rBool _ => .bool
  | .rUint128 _ _ => .uint128

/-- What an overload of `waitRequest` reads from the union. Only the member stored last can be
read; the overload without output argument reads nothing. -/
def Kind.read (k : Kind) (r : Option Result) : Option Result :=
  r.filter fun v => v.kind = k

/-! ## The handler -/

structure Record where
  locked : Bool
  data : Nat
  result : Option Result

/-- `Record()` locks its mutex and leaves `data` and `result` uninitialised. -/
def Record.new : Record := ⟨true, 0, Option.none⟩

structure Handler where
  requestID : RequestID
  requests : RequestID → Option RecordPtr
  freeRecords : List RecordPtr
  records : RecordPtr → Record
  allocated : Nat

/-- `RequestHandler()` -/
def Handler.new : Handler := ⟨1, fun _ => Option.none, [], fun _ => Record.new, 0⟩

def Handler.setRecord (s : Handler) (r : RecordPtr) (x : Record) : Handler :=
  { s with records := Function.update s.records r x }

/-- Take a record from the free list, or allocate one. -/
def Handler.takeRecord (s : Handler) : RecordPtr × Handler :=
  match s.freeRecords with
  | [] => (s.allocated, { s.setRecord s.allocated Record.new with allocated := s.allocated + 1 })
  | r :: rs => (r, { s with freeRecords := rs })

def Handler.registerRequest (s : Handler) (data : Nat) : RequestID × Handler :=
  let (r, s) := s.takeRecord
  let s := s.setRecord r { s.records r with data := data }
  let id := (s.requestID + 1) % maxUint32
  (id, { s with requestID := id, requests := Function.update s.requests id (some r) })

def Handler.unregisterRequest (s : Handler) (id : RequestID) : Handler :=
  match s.requests id with
  | none => s
  | some r =>
      { s with requests := Function.update s.requests id none, freeRecords := r :: s.freeRecords }

/-- `lock.try_lock()` of a record. -/
def Handler.tryLock (s : Handler) (r : RecordPtr) : Bool × Handler :=
  if (s.records r).locked then (false, s)
  else (true, s.setRecord r { s.records r with locked := true })

/-- `lock.unlock()` of a record. -/
def Handler.unlock (s : Handler) (r : RecordPtr) : Handler :=
  s.setRecord r { s.records r with locked := false }

/-- `request->result = v; request->lock.unlock()` -/
def Handler.complete (s : Handler) (r : RecordPtr) (v : Result) : Handler :=
  (s.setRecord r { s.records r with result := some v }).unlock r

/-- `serveRequest`: its four overloads differ in the member they store. -/
def Handler.serveRequest (s : Handler) (id : RequestID) (v : Result) : Handler :=
  match s.requests id with
  | none => s
  | some r => s.complete r v

def Handler.isRequestReady (s : Handler) (id : RequestID) : Bool × Handler :=
  match s.requests id with
  | none => (false, s)
  | some r =>
      match s.tryLock r with
      | (true, s) => (true, s.unlock r)
      | (false, s) => (false, s)

/-- `waitRequest`, with `some v` for a true return and the union read. The whole call is
refused (`none`) where it would block: an indefinite wait for an unserved request. -/
def Handler.waitRequest (s : Handler) (id : RequestID) (timeout : Nat) :
    Option (Option (Option Result) × Handler) :=
  match s.requests id with
  | none => some (none, s)
  | some r =>
      match s.tryLock r with
      | (true, s) => some (some (s.records r).result, s.unregisterRequest id)
      | (false, s) => if timeout = timeoutIndefinite then none else some (none, s)

/-! ## Specifications of the operations -/

@[simp] theorem setRecord_requests (s : Handler) (r : RecordPtr) (x : Record) :
    (s.setRecord r x).requests = s.requests := rfl

@[simp] theorem setRecord_freeRecords (s : Handler) (r : RecordPtr) (x : Record) :
    (s.setRecord r x).freeRecords = s.freeRecords := rfl

@[simp] theorem setRecord_allocated (s : Handler) (r : RecordPtr) (x : Record) :
    (s.setRecord r x).allocated = s.allocated := rfl

@[simp] theorem setRecord_requestID (s : Handler) (r : RecordPtr) (x : Record) :
    (s.setRecord r x).requestID = s.requestID := rfl

@[simp] theorem setRecord_same (s : Handler) (r : RecordPtr) (x : Record) :
    (s.setRecord r x).records r = x := by
  simp [Handler.setRecord]

theorem setRecord_ne (s : Handler) {r r' : RecordPtr} (x : Record) (h : r' ≠ r) :
    (s.setRecord r x).records r' = s.records r' := by
  simp [Handler.setRecord, h]

theorem unregisterRequest_none {s : Handler} {id : RequestID} (h : s.requests id = none) :
    s.unregisterRequest id = s := by
  simp [Handler.unregisterRequest, h]

theorem unregisterRequest_some {s : Handler} {id : RequestID} {r : RecordPtr}
    (h : s.requests id = some r) :
    s.unregisterRequest id = { s with
      requests := Function.update s.requests id none
      freeRecords := r :: s.freeRecords } := by
  simp [Handler.unregisterRequest, h]

@[simp] theorem unregisterRequest_requests (s : Handler) (id : RequestID) :
    (s.unregisterRequest id).requests = Function.update s.requests id none := by
  cases hid : s.requests id with
  | none => rw [unregisterRequest_none hid, ← hid, Function.update_eq_self]
  | some r => rw [unregisterRequest_some hid]

@[simp] theorem unregisterRequest_records (s : Handler) (id : RequestID) :
    (s.unregisterRequest id).records = s.records := by
  unfold Handler.unregisterRequest
  cases s.requests id <;> rfl

@[simp] theorem unregisterRequest_requestID (s : Handler) (id : RequestID) :
    (s.unregisterRequest id).requestID = s.requestID := by
  unfold Handler.unregisterRequest
  cases s.requests id <;> rfl

@[simp] theorem unregisterRequest_allocated (s : Handler) (id : RequestID) :
    (s.unregisterRequest id).allocated = s.allocated := by
  unfold Handler.unregisterRequest
  cases s.requests id <;> rfl

theorem mem_unregisterRequest_free {s : Handler} {id : RequestID} {q : RecordPtr} :
    q ∈ (s.unregisterRequest id).freeRecords ↔
      q ∈ s.freeRecords ∨ s.requests id = some q := by
  cases hid : s.requests id with
  | none => simp [unregisterRequest_none hid]
  | some r =>
      rw [unregisterRequest_some hid, List.mem_cons, Option.some.injEq, or_comm, eq_comm]

/-- Asking whether a request is ready changes nothing. -/
theorem isRequestReady_eq (s : Handler) (id : RequestID) :
    s.isRequestReady id
      = (match s.requests id with
          | none => false
          | some r => !(s.records r).locked, s) := by
  unfold Handler.isRequestReady Handler.tryLock
  cases hid : s.requests id with
  | none => rfl
  | some r =>
      cases hl : (s.records r).locked with
      | true => simp [hl]
      | false =>
          have hr : s.records r = ⟨false, (s.records r).data, (s.records r).result⟩ := by
            rw [← hl]
          have hs : (s.setRecord r { s.records r with locked := true }).unlock r = s := by
            unfold Handler.unlock
            rw [setRecord_same, Handler.setRecord, Handler.setRecord, Function.update_idem, ← hr,
              Function.update_eq_self]
          simp [hl, hs]

theorem waitRequest_absent {s : Handler} {id : RequestID} (h : s.requests id = none)
    (timeout : Nat) : s.waitRequest id timeout = some (none, s) := by
  simp [Handler.waitRequest, h]

theorem waitRequest_locked {s : Handler} {id : RequestID} {r : RecordPtr}
    (h : s.requests id = some r) (hl : (s.records r).locked = true) (timeout : Nat) :
    s.waitRequest id timeout
      = if timeout = timeoutIndefinite then none else some (none, s) := by
  simp [Handler.waitRequest, Handler.tryLock, h, hl]

theorem waitRequest_unlocked {s : Handler} {id : RequestID} {r : RecordPtr}
    (h : s.requests id = some r) (hl : (s.records r).locked = false) (timeout : Nat) :
    s.waitRequest id timeout
      = some (some (s.records r).result,
          (s.setRecord r { s.records r with locked := true }).unregisterRequest id) := by
  simp [Handler.waitRequest, Handler.tryLock, h, hl]

end Lunchbox.RequestHandler
