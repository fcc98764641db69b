import Lunchbox.Lib.Machine

set_option autoImplicit false

/-! # `Log`

The stream buffer of a log (`log.cpp`), with `NDEBUG`. Characters are collected in a string stream,
the first one of a line with a header and the indentation in front of it, and `sync` delivers them
to the output stream. `sync` does nothing but start a new line while the flush is disabled, however
it was called: by `std::endl`, by `forceFlush` or by the destructor.

So nothing is lost or delivered twice as long as the log exists, but `forceFlush` and the destructor
deliver everything only if the flush is not disabled or nothing was held back
(`forced_flush_delivers_iff`).
-/

namespace Lunchbox.Log

open StateMachine

/-! ## Headers -/

def lengthPid : Nat := 5
def lengthThread : Nat := 8
def lengthFile : Nat := 29
def lengthTime : Nat := 6

/-- `LOG_INFO` -/
def logInfo : Int := 2

/-- `std::right << std::setw(n)` -/
def right (n : Nat) (text : List Char) : List Char :=
  List.replicate (n - text.length) ' ' ++ text

/-- `std::left << std::setw(n)` -/
def left (n : Nat) (text : List Char) : List Char :=
  text ++ List.replicate (n - text.length) ' '

def decimal (x : Int) : List Char := (toString x).toList

/-- What a header shows and the log does not keep: the level, the process and the time. -/
structure Globals where
  level : Int
  pid : Int
  time : Int

/-- The header of a line. -/
def header (g : Globals) (thread file : List Char) : List Char :=
  if g.level > logInfo then
    right lengthPid (decimal g.pid) ++ ['.'] ++ left lengthThread thread ++ [' '] ++ file ++
      [' '] ++ right lengthTime (decimal g.time) ++ [' ']
  else right lengthTime (decimal g.time) ++ [' ']

/-- What `setLogInfo` writes to `_file`, of which `snprintf` keeps 34 characters. -/
def fileAndLine (file : List Char) (line : Int) : List Char :=
  let file := if file.length > lengthFile then file.drop (file.length - lengthFile) else file
  (right lengthFile file ++ [':'] ++ left 4 (decimal line)).take (lengthFile + 5)

/-! ## The log -/

/-- The members of `detail::Log`, what was written to the output stream, and whether the log
exists. -/
structure State where
  thread : List Char
  file : List Char
  indent : Int
  blocked : Int
  noHeader : Int
  newLine : Bool
  stringStream : List Char
  stream : List Char
  alive : Bool

namespace State

variable (s : State)

/-- What `overflow` writes in front of a character. -/
def lead (g : Globals) : List Char :=
  if s.newLine then
    (if s.noHeader = 0 then header g s.thread s.file else []) ++
      List.replicate (4 * s.indent.toNat) ' '
  else []

def overflow (g : Globals) (c : Char) : State :=
  { s with newLine := false, stringStream := s.stringStream ++ (s.lead g ++ [c]) }

def sync : State :=
  if s.blocked = 0 then
    { s with stream := s.stream ++ s.stringStream, stringStream := [], newLine := true }
  else { s with newLine := true }

end State

/-- What is done with a log. A write has the globals that it reads. -/
inductive Op
  | write (c : Char) (g : Globals)
  /-- `std::endl` -/
  | endl (g : Globals)
  /-- `std::flush` -/
  | flush
  | forceFlush
  | indent
  | exdent
  | disableFlush
  | enableFlush
  | disableHeader
  | enableHeader
  | setLogInfo (file : List Char) (line : Int)
  | setThreadName (name : List Char)
  /-- `~Log()` -/
  | destroy

def call (s : State) : Op → State
  | .write c g => s.overflow g c
  | .endl g => (s.overflow g '\n').sync
  | .flush => s.sync
  | .forceFlush => s.sync
  | .indent => { s with indent := s.indent + 1 }
  | .exdent => { s with indent := s.indent - 1 }
  | .disableFlush => { s with blocked := s.blocked + 1 }
  | .enableFlush => { s with blocked := s.blocked - 1 }
  | .disableHeader => { s with noHeader := s.noHeader + 1 }
  | .enableHeader => { s with noHeader := s.noHeader - 1 }
  | .setLogInfo file line => { s with file := fileAndLine file line }
  | .setThreadName name => { s with thread := name.take lengthThread }
  | .destroy => { s.sync with alive := false }

/-- A log from its construction to its destruction. -/
def log : Machine State Op Unit where
  init := ⟨"Unknown".toList, [], 0, 0, 0, true, [], [], true⟩
  step s op := if s.alive then some ((), call s op) else none

abbrev History := List (Op × Unit)

/-! ## What was written

The text of a history, from the calls alone. -/

/-- The value of the last call that has set it. -/
def latest {α : Type} (value : Op → Option α) (initial : α) (tr : History) : α :=
  tr.foldl (fun x e => (value e.1).getD x) initial

/-- How many more calls have raised a counter than lowered it. -/
def depth (change : Op → Int) (tr : History) : Int := (tr.map fun e => change e.1).sum

def indentation : Op → Int
  | .indent => 1
  | .exdent => -1
  | _ => 0

def flushDisabled : Op → Int
  | .disableFlush => 1
  | .enableFlush => -1
  | _ => 0

def headerDisabled : Op → Int
  | .disableHeader => 1
  | .enableHeader => -1
  | _ => 0

def threadName : Op → Option (List Char)
  | .setThreadName name => some (name.take lengthThread)
  | _ => none

def fileInfo : Op → Option (List Char)
  | .setLogInfo file line => some (fileAndLine file line)
  | _ => none

/-- Whether the next character is the first one of a line; a line ends with a flush. -/
def lineStart : Op → Option Bool
  | .write _ _ => some false
  | .endl _ => some true
  | .flush => some true
  | .forceFlush => some true
  | .destroy => some true
  | _ => none

/-- A character with the header and the indentation of its line. -/
def character (pre : History) (g : Globals) (c : Char) : List Char :=
  (if latest lineStart true pre then
    (if depth headerDisabled pre = 0 then
      header g (latest threadName "Unknown".toList pre) (latest fileInfo [] pre) else []) ++
      List.replicate (4 * (depth indentation pre).toNat) ' '
  else []) ++ [c]

def text (pre : History) : Op → List Char
  | .write c g => character pre g c
  | .endl g => character pre g '\n'
  | _ => []

/-- Everything that was written, in its order, after `pre`. -/
def writtenFrom (pre : History) : History → List Char
  | [] => []
  | e :: tr => text pre e.1 ++ writtenFrom (pre ++ [e]) tr

def written (tr : History) : List Char := writtenFrom [] tr

/-! ## The property and the condition -/

/-- `forceFlush` and the destructor -/
def Forces : Op → Prop
  | .forceFlush => True
  | .destroy => True
  | _ => False

instance : DecidablePred Forces
  | .forceFlush | .destroy => isTrue trivial
  | .write _ _ | .endl _ | .flush | .indent | .exdent | .disableFlush | .enableFlush
  | .disableHeader | .enableHeader | .setLogInfo _ _ | .setThreadName _ => isFalse id

/-- After a forced flush the output stream has got what was written. -/
def Delivered (tr : History) (s : State) : Prop :=
  ∀ pre op, tr = pre ++ [(op, ())] → Forces op → s.stream = written tr

/-- The flush is not disabled, or nothing was held back. -/
def Unblocked (s : State) (op : Op) : Prop := Forces op → s.blocked = 0 ∨ s.stringStream = []

instance (s : State) (op : Op) : Decidable (Unblocked s op) := inferInstanceAs (Decidable (_ → _))

/-! ## Nothing is lost -/

variable {tr : History} {s : State}

theorem latest_snoc {α : Type} (value : Op → Option α) (initial : α) (e : Op × Unit) :
    latest value initial (tr ++ [e]) = (value e.1).getD (latest value initial tr) := by
  rw [latest, List.foldl_append]
  rfl

theorem depth_snoc (change : Op → Int) (e : Op × Unit) :
    depth change (tr ++ [e]) = depth change tr + change e.1 := by
  rw [depth, List.map_append, List.sum_append]
  simp [depth]

theorem writtenFrom_snoc (pre tr : History) (e : Op × Unit) :
    writtenFrom pre (tr ++ [e]) = writtenFrom pre tr ++ text (pre ++ tr) e.1 := by
  induction tr generalizing pre with
  | nil => simp [writtenFrom]
  | cons e' tr ih =>
      rw [List.cons_append, writtenFrom, writtenFrom, ih, List.append_assoc, List.append_assoc,
        List.singleton_append]

theorem written_snoc (e : Op × Unit) : written (tr ++ [e]) = written tr ++ text tr e.1 := by
  rw [written, writtenFrom_snoc, List.nil_append]
  rfl

/-- The members of the log as the calls have set them; what was written is delivered or in the
string stream. -/
structure Inv (tr : History) (s : State) : Prop where
  thread : s.thread = latest threadName "Unknown".toList tr
  file : s.file = latest fileInfo [] tr
  indent : s.indent = depth indentation tr
  blocked : s.blocked = depth flushDisabled tr
  noHeader : s.noHeader = depth headerDisabled tr
  newLine : s.newLine = latest lineStart true tr
  written : s.stream ++ s.stringStream = written tr

theorem inv_init : Inv [] log.init := ⟨rfl, rfl, rfl, rfl, rfl, rfl, rfl⟩

section Sync

variable (s : State)

@[simp] theorem sync_thread : s.sync.thread = s.thread := by unfold State.sync; split_ifs <;> rfl

@[simp] theorem sync_file : s.sync.file = s.file := by unfold State.sync; split_ifs <;> rfl

@[simp] theorem sync_indent : s.sync.indent = s.indent := by unfold State.sync; split_ifs <;> rfl

@[simp] theorem sync_blocked : s.sync.blocked = s.blocked := by unfold State.sync; split_ifs <;> rfl

@[simp] theorem sync_noHeader : s.sync.noHeader = s.noHeader := by
  unfold State.sync; split_ifs <;> rfl

@[simp] theorem sync_newLine : s.sync.newLine = true := by unfold State.sync; split_ifs <;> rfl

/-- `sync` moves characters, and loses none. -/
theorem sync_written : s.sync.stream ++ s.sync.stringStream = s.stream ++ s.stringStream := by
  unfold State.sync
  split_ifs
  · exact List.append_nil _
  · rfl

/-- All of them are moved, unless the flush is disabled and there are some. -/
theorem sync_delivers :
    s.sync.stream = s.stream ++ s.stringStream ↔ s.blocked = 0 ∨ s.stringStream = [] := by
  unfold State.sync
  split_ifs with h
  · exact iff_of_true rfl (Or.inl h)
  · rw [or_iff_right h]
    exact List.self_eq_append_right

end Sync

/-! What a call does to each member: -/

section Call

variable (s : State) (op : Op)

theorem call_thread : (call s op).thread = (threadName op).getD s.thread := by
  cases op <;> simp [call, threadName, State.overflow]

theorem call_file : (call s op).file = (fileInfo op).getD s.file := by
  cases op <;> simp [call, fileInfo, State.overflow]

theorem call_indent : (call s op).indent = s.indent + indentation op := by
  cases op <;> simp [call, indentation, State.overflow, Int.sub_eq_add_neg]

theorem call_blocked : (call s op).blocked = s.blocked + flushDisabled op := by
  cases op <;> simp [call, flushDisabled, State.overflow, Int.sub_eq_add_neg]

theorem call_noHeader : (call s op).noHeader = s.noHeader + headerDisabled op := by
  cases op <;> simp [call, headerDisabled, State.overflow, Int.sub_eq_add_neg]

theorem call_newLine : (call s op).newLine = (lineStart op).getD s.newLine := by
  cases op <;> simp [call, lineStart, State.overflow]

end Call

/-- The character that `overflow` adds is that of the text. -/
theorem Inv.character (h : Inv tr s) (g : Globals) (c : Char) :
    s.lead g ++ [c] = Log.character tr g c := by
  rw [State.lead, Log.character, h.newLine, h.noHeader, h.thread, h.file, h.indent]

theorem call_written (h : Inv tr s) (op : Op) :
    (call s op).stream ++ (call s op).stringStream
      = s.stream ++ s.stringStream ++ text tr op := by
  cases op with
  | write c g =>
      rw [text, ← h.character, List.append_assoc]
      rfl
  | endl g =>
      -- the newline is written before `sync` is called
      rw [text, ← h.character, call, sync_written, List.append_assoc]
      rfl
  | flush | forceFlush | destroy => exact (sync_written s).trans (List.append_nil _).symm
  | indent | exdent | disableFlush | enableFlush | disableHeader | enableHeader | setLogInfo
  | setThreadName => exact (List.append_nil _).symm

theorem step_eq {op : Op} {o : Unit} {s' : State} (hs : log.step s op = some (o, s')) :
    s' = call s op := by
  obtain ⟨-, he⟩ := Option.ite_none_right_eq_some.mp hs
  cases he
  rfl

theorem inv_step {op : Op} {o : Unit} {s' : State} (h : Inv tr s)
    (hs : log.step s op = some (o, s')) : Inv (tr ++ [(op, o)]) s' := by
  rw [step_eq hs]
  refine ⟨?_, ?_, ?_, ?_, ?_, ?_, ?_⟩
  · rw [call_thread, latest_snoc, h.thread]
  · rw [call_file, latest_snoc, h.file]
  · rw [call_indent, depth_snoc, h.indent]
  · rw [call_blocked, depth_snoc, h.blocked]
  · rw [call_noHeader, depth_snoc, h.noHeader]
  · rw [call_newLine, latest_snoc, h.newLine]
  · rw [call_written h, written_snoc, h.written]

/-- **Nothing is lost or delivered twice** as long as the log exists, and after it. -/
theorem inv_of_trace (h : log.Trace tr s) : Inv tr s := by
  induction h with
  | nil => exact inv_init
  | snoc _ hs ih => exact inv_step ih hs

/-! ## Forced flushes -/

/-- A forced flush delivers everything exactly if it is not blocked. -/
theorem delivered_step {op : Op} {o : Unit} {s' : State} (h : Inv tr s)
    (hs : log.step s op = some (o, s')) :
    Delivered (tr ++ [(op, o)]) s' ↔ Unblocked s op := by
  have hwritten : Forces op → (s'.stream = written (tr ++ [(op, o)]) ↔
      s.blocked = 0 ∨ s.stringStream = []) := by
    intro hf
    -- a forced flush adds no text, and what it does to the stream is `sync`
    have htext : text tr op = [] := by cases op <;> first | rfl | exact hf.elim
    have hstream : (call s op).stream = s.sync.stream := by
      cases op <;> first | rfl | exact hf.elim
    rw [step_eq hs, written_snoc, htext, List.append_nil, ← h.written, hstream]
    exact sync_delivers s
  constructor
  · intro hd hf
    exact (hwritten hf).mp (hd tr op rfl hf)
  · intro hu pre op' he hf
    obtain ⟨rfl, hlast⟩ := List.append_inj' he rfl
    cases hlast
    exact (hwritten hf).mpr (hu hf)

/-- **When forced flushes lose nothing.** In a run, everything that was written before has been
delivered after each `forceFlush` and after the destruction, once and in its order, if and only if
the flush was not disabled or nothing was held back in each of them. -/
theorem forced_flush_delivers_iff (h : log.Trace tr s) :
    log.Always Delivered tr ↔ log.Guarded Unblocked tr := by
  have h0 : Delivered [] log.init := by
    intro pre op he
    simp at he
  refine h.always_iff_guarded h0 ?_
  intro tr s op o s' ht _ hs
  exact delivered_step (inv_of_trace ht) hs

/-- What was held back is delivered once the flush is enabled again. -/
theorem forced_flush_delivers_enabled :
    log.Always Delivered [(.disableFlush, ()), (.endl ⟨1, 7, 0⟩, ()), (.write 'a' ⟨1, 7, 0⟩, ()),
      (.enableFlush, ()), (.forceFlush, ()), (.destroy, ())] := by
  have hr : log.run [.disableFlush, .endl ⟨1, 7, 0⟩, .write 'a' ⟨1, 7, 0⟩, .enableFlush,
      .forceFlush, .destroy] log.init = some (_, _) := rfl
  refine (forced_flush_delivers_iff (Machine.Trace.of_run _ hr)).mpr
    (Machine.guarded_of_run _ hr ?_)
  decide

/-- A character that neither `forceFlush` nor the destructor delivers. -/
theorem forced_flush_loses :
    ∃ s, log.Trace [(.disableHeader, ()), (.disableFlush, ()), (.write 'x' ⟨1, 7, 0⟩, ()),
        (.forceFlush, ()), (.destroy, ())] s ∧
      s.stream = [] ∧
      ¬ log.Always Delivered [(.disableHeader, ()), (.disableFlush, ()),
        (.write 'x' ⟨1, 7, 0⟩, ()), (.forceFlush, ()), (.destroy, ())] := by
  have hr : log.run [.disableHeader, .disableFlush, .write 'x' ⟨1, 7, 0⟩, .forceFlush, .destroy]
      log.init = some (_, _) := rfl
  refine ⟨_, Machine.Trace.of_run _ hr, rfl, ?_⟩
  intro h
  have hd := h _ [] _ (List.append_nil _).symm (Machine.Trace.of_run _ hr)
  exact absurd (hd [_, _, _, _] .destroy rfl trivial) (by decide)

end Lunchbox.Log
