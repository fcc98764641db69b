import Lunchbox.Lib.Count
import Lunchbox.Log

set_option autoImplicit false

/-! # The logs of several threads

Every thread has a log of its own (`PerThread<Log>` in `log.cpp`), which `Log::instance` constructs
on the current output. `setOutput` and `reset` change the output, for the logs constructed from then
on, and delete the file that an earlier `setOutput` has opened. A step of a thread is one access to
what the threads share: the output, the file, the flag `first`, the lock of `sync` and, character
by character, the output streams. The members of a log are its thread's own.

The lock is a mutex here. The text of every stream consists of the flushed buffers, each in one
piece, and what a thread has written is flushed once and in its order, is still in its buffer or was
lost with a log that was destroyed while its flush was disabled (`texts_whole`). A file that was
deleted must not be written to or deleted again: this is a fault, after which nothing is known.
-/

namespace Lunchbox.Log.Threads

open StateMachine

/-! ## What a thread does -/

/-- `std::cout`, a stream of the program, or a file that `setOutput` has opened. -/
inductive Stream
  | standard
  | user (n : Nat)
  | file (n : Nat)
  deriving DecidableEq

/-- The log of a thread, with the `_stream` it was constructed on. -/
structure Instance where
  output : Stream
  state : Log.State

/-- The next thing a thread does. -/
inductive Instr
  /-- `Log::instance()` -/
  | instantiate (g : Globals)
  /-- `first = false` -/
  | titled
  /-- a call that changes members of the log only -/
  | member (op : Op)
  /-- `sync`, called by the destructor if it is the last one -/
  | sync (last : Bool)
  /-- `sync`: `ScopedFastWrite mutex(globals().lock)` -/
  | lock
  /-- `sync`: one character of `_stream.write` -/
  | put (c : Char)
  /-- `sync`: `pubsync` of the stream, the end of the scope of the mutex, and the rest of the
  function -/
  | unlock (last : Bool)
  /-- `setOutput`: `new std::ofstream(file)`, with the error if the file can not be opened -/
  | openFile (name : List Char) (g : Globals) (error : Option (List Char))
  /-- `globals().stream = &stream` -/
  | setStream (output : Stream)
  /-- `delete globals().file` -/
  | deleteFile
  /-- `globals().file = file` -/
  | setFile (file : Option Nat)

/-- What a call of the log does; `std::endl` writes a newline first. -/
def instrs : Op → List Instr
  | .endl g => [.member (.write '\n' g), .sync false]
  | .flush => [.sync false]
  | .forceFlush => [.sync false]
  | .destroy => [.sync true]
  | op => [.member op]

def logError : Int := 1
def logDebug : Int := 3

def print (g : Globals) (text : List Char) : List Instr := text.map fun c => .member (.write c g)

/-- A statement such as `LBINFO << … << std::endl`, at a line of a file. -/
def statement (g : Globals) (file : List Char) (line : Int) (ops : List Op) : List Instr :=
  .instantiate g :: .member (.setLogInfo file line) :: ops.flatMap instrs

/-- A line with a text. -/
def message (g : Globals) (text : List Char) : List Op :=
  text.map (fun c => .write c g) ++ [.endl g]

/-- The titles of the columns, which the first log prints without a header. -/
def titles (g : Globals) : List Instr :=
  [.member .disableHeader, .member .disableFlush] ++
    print g (right lengthPid "PID".toList ++ ['.'] ++ left lengthThread "Thread ".toList ++ ['|'] ++
      left (lengthFile + 5) " Filename:line ".toList ++ ['|'] ++ right lengthTime " ms ".toList ++
      ['|'] ++ " Message".toList) ++
    instrs (.endl g) ++ [.member .enableFlush, .member .enableHeader]

/-- The functions that a thread calls. `exit` also happens at its end. -/
inductive Call
  | log (g : Globals) (file : List Char) (line : Int) (ops : List Op)
  | exit
  | reset
  | setOutput (n : Nat)
  | setOutputFile (name : List Char) (g : Globals) (error : Option (List Char))

def Call.body : Call → List Instr
  | .log g file line ops => statement g file line ops
  | .exit => [.sync true]
  | .reset => [.sync true, .deleteFile, .setFile none, .setStream .standard]
  | .setOutput n => [.setStream (.user n), .sync true]
  | .setOutputFile name g error => [.openFile name g error]

/-- `setOutput` after the file has been opened as the `n`-th one, or not. -/
def opened (path name : List Char) (g : Globals) (n : Nat) : Option (List Char) → List Instr
  | some error =>
      if g.level ≥ logError then
        statement g path 407 (message g
          ("Can't open log file ".toList ++ name ++ ": ".toList ++ error))
      else []
  | none =>
      (if g.level ≥ logDebug then
        statement g path 413 (message g ("Redirect log to ".toList ++ name))
      else []) ++
        [.setStream (.file n), .sync true, .deleteFile, .setFile (some n)]

/-! ## The machine -/

/-- The members of `LogGlobals` that change, the files opened and deleted so far, whether a deleted
one was accessed, the text of each stream, and of each thread its log and what it has still to
do. -/
structure State (ι : Type) where
  stream : Stream
  file : Option Nat
  files : Nat
  deleted : List Nat
  fault : Bool
  first : Bool
  lock : Option ι
  text : Stream → List Char
  logs : ι → Option Instance
  todo : ι → List Instr

inductive Action (ι : Type)
  | call (t : ι) (f : Call)
  | step (t : ι)

/-- What a step did with characters: a thread wrote them to its log, flushed its buffer, or lost
it. -/
inductive Output
  | quiet
  | wrote (text : List Char)
  | flushed (output : Stream) (text : List Char)
  | lost (text : List Char)

/-- What a call that changes members of the log only adds to the buffer. -/
def added (s : Log.State) : Op → List Char
  | .write c g => s.lead g ++ [c]
  | _ => []

/-- A log after `sync`, unless that was called by the destructor. -/
def Instance.after (i : Instance) (last : Bool) : Option Instance :=
  if last then none else some { i with state := i.state.sync }

variable {ι : Type} [DecidableEq ι]

namespace State

variable (s : State ι)

def goto (t : ι) (todo : List Instr) : State ι := { s with todo := Function.update s.todo t todo }

def setLog (t : ι) (log : Option Instance) : State ι :=
  { s with logs := Function.update s.logs t log }

omit [DecidableEq ι] in
def Exists : Stream → Prop
  | .standard => True
  | .user _ => True
  | .file n => n ∉ s.deleted

omit [DecidableEq ι] in
instance : DecidablePred s.Exists
  | .standard => isTrue trivial
  | .user _ => isTrue trivial
  | .file n => inferInstanceAs (Decidable (n ∉ s.deleted))

/-- The next instruction of a thread, with `rest` to do afterwards. -/
def exec (path : List Char) (t : ι) (rest : List Instr) : Instr → Option (Output × State ι)
  | .instantiate g =>
      match s.logs t with
      | some _ => some (.quiet, s.goto t rest)
      | none =>
          some (.quiet, (s.setLog t (some ⟨s.stream, log.init⟩)).goto t
            (if s.first ∧ g.level > logInfo then .titled :: (titles g ++ rest) else rest))
  | .titled => some (.quiet, { s with first := false }.goto t rest)
  | .member op =>
      (s.logs t).map fun i => (.wrote (added i.state op),
        (s.setLog t (some { i with state := call i.state op })).goto t rest)
  | .sync last =>
      match s.logs t with
      -- the destructor is not called if there is no log
      | none => some (.quiet, s.goto t rest)
      | some i =>
          if i.state.blocked = 0 then
            some (.quiet,
              s.goto t (.lock :: (i.state.stringStream.map .put ++ .unlock last :: rest)))
          else
            some (if last then .lost i.state.stringStream else .quiet,
              (s.setLog t (i.after last)).goto t rest)
  | .lock => if s.lock = none then some (.quiet, { s with lock := some t }.goto t rest) else none
  | .put c =>
      (s.logs t).map fun i =>
        if s.Exists i.output then (.quiet, { s with
          text := Function.update s.text i.output (s.text i.output ++ [c]) }.goto t rest)
        else (.quiet, { s with fault := true }.goto t rest)
  | .unlock last =>
      (s.logs t).map fun i =>
        if s.Exists i.output then (.flushed i.output i.state.stringStream,
          ({ s with lock := none }.setLog t (i.after last)).goto t rest)
        else (.quiet, { s with fault := true }.goto t rest)
  | .openFile name g error =>
      some (.quiet, { s with files := if error = none then s.files + 1 else s.files }.goto t
        (opened path name g s.files error ++ rest))
  | .setStream output => some (.quiet, { s with stream := output }.goto t rest)
  | .deleteFile =>
      some (.quiet, { s with
        deleted := s.deleted ++ s.file.toList
        fault := s.file.any (· ∈ s.deleted) }.goto t rest)
  | .setFile file => some (.quiet, { s with file := file }.goto t rest)

end State

/-- The threads of a program, up to a fault; `path` is the name of the source file `log.cpp` in its
messages. -/
def threads (path : List Char) : Machine (State ι) (Action ι) Output where
  init := ⟨.standard, none, 0, [], false, true, none, fun _ => [], fun _ => none, fun _ => []⟩
  step s a :=
    if s.fault then none else
      match a with
      | .call t f => if (s.todo t).isEmpty then some (.quiet, s.goto t f.body) else none
      | .step t =>
          match s.todo t with
          | [] => none
          | instr :: rest => s.exec path t rest instr

abbrev History (ι : Type) := List (Action ι × Output)

theorem of_call {path : List Char} {s s' : State ι} {t : ι} {f : Call} {o : Output}
    (h : (threads path).step s (.call t f) = some (o, s')) :
    s.fault = false ∧ s.todo t = [] ∧ o = .quiet ∧ s' = s.goto t f.body := by
  simp only [threads] at h
  split_ifs at h with hfault hempty
  cases h
  exact ⟨Bool.eq_false_of_not_eq_true hfault, List.isEmpty_iff.mp hempty, rfl, rfl⟩

theorem of_step {path : List Char} {s s' : State ι} {t : ι} {o : Output}
    (h : (threads path).step s (.step t) = some (o, s')) :
    s.fault = false ∧
      ∃ instr rest, s.todo t = instr :: rest ∧ s.exec path t rest instr = some (o, s') := by
  simp only [threads] at h
  split_ifs at h with hfault
  split at h
  · cases h
  · rename_i instr rest htodo
    exact ⟨Bool.eq_false_of_not_eq_true hfault, instr, rest, htodo, h⟩

/-- There are no steps after a fault. -/
theorem not_fault_of_step {path : List Char} {s s' : State ι} {a : Action ι} {o : Output}
    (h : (threads path).step s a = some (o, s')) : s.fault = false := by
  cases a with
  | call => exact (of_call h).1
  | step => exact (of_step h).1

/-! ## What was written and what became of it -/

def Action.thread : Action ι → ι
  | .call t _ => t
  | .step t => t

def Output.written : Output → List Char
  | .wrote text => text
  | _ => []

/-- What has left the buffer of a thread. -/
def Output.settled : Output → List Char
  | .flushed _ text => text
  | .lost text => text
  | _ => []

/-- What a stream has got. -/
def Output.sent (output : Stream) : Output → List Char
  | .flushed output' text => if output' = output then text else []
  | _ => []

/-- The characters of one thread in a history. -/
def charsOf (t : ι) (part : Output → List Char) (tr : History ι) : List Char :=
  tr.flatMap fun e => if e.1.thread = t then part e.2 else []

/-- The buffers that were flushed to a stream. -/
def flushedTo (tr : History ι) (output : Stream) : List Char := tr.flatMap fun e => e.2.sent output

/-- The buffer of a log, if there is one. -/
def chars : Option Instance → List Char
  | some i => i.state.stringStream
  | none => []

def State.buffer (s : State ι) (t : ι) : List Char := chars (s.logs t)

/-- A stream has got the buffers that were flushed to it, and of the one that is being flushed the
beginning. -/
def Whole (tr : History ι) (s : State ι) : Prop :=
  match s.lock with
  | none => s.text = flushedTo tr
  | some t => ∃ i begun left, s.logs t = some i ∧ i.state.stringStream = begun ++ left ∧
      ∀ output, s.text output
        = flushedTo tr output ++ if i.output = output then begun else []

/-! ## Where a thread is -/

/-- The instructions outside of `sync`. -/
def Instr.Plain : Instr → Prop
  | .member (.endl _) => False
  | .member .flush => False
  | .member .forceFlush => False
  | .member .destroy => False
  | .lock => False
  | .put _ => False
  | .unlock _ => False
  | _ => True

abbrev Plain (todo : List Instr) : Prop := ∀ instr ∈ todo, instr.Plain

/-- Where a thread is: outside of `sync`, before the lock, or between the characters it writes, some
of which the stream has got in addition to what was `sent` to it. -/
inductive Place (s : State ι) (sent : Stream → List Char) (t : ι) : Prop
  | free (htodo : Plain (s.todo t)) (hlock : s.lock ≠ some t)
  | waiting {i : Instance} {last : Bool} {rest : List Instr} (hlog : s.logs t = some i)
      (hblocked : i.state.blocked = 0)
      (htodo : s.todo t = .lock :: (i.state.stringStream.map .put ++ .unlock last :: rest))
      (hrest : Plain rest) (hlock : s.lock ≠ some t)
  | writing {i : Instance} {begun left : List Char} {last : Bool} {rest : List Instr}
      (hlog : s.logs t = some i) (hblocked : i.state.blocked = 0)
      (hbuffer : i.state.stringStream = begun ++ left)
      (htodo : s.todo t = left.map .put ++ .unlock last :: rest) (hrest : Plain rest)
      (hlock : s.lock = some t)
      (htext : ∀ output, s.text output = sent output ++ if i.output = output then begun else [])

structure Inv (tr : History ι) (s : State ι) : Prop where
  place : ∀ t, Place s (flushedTo tr) t
  text : s.lock = none → s.text = flushedTo tr
  conserved : ∀ t, charsOf t Output.written tr = charsOf t Output.settled tr ++ s.buffer t

section Plain

theorem plain_instrs (op : Op) : Plain (instrs op) := by
  cases op <;> simp [instrs, Plain, Instr.Plain]

theorem plain_statement (g : Globals) (file : List Char) (line : Int) (ops : List Op) :
    Plain (statement g file line ops) := by
  simp only [statement, Plain, List.forall_mem_cons, List.forall_mem_flatMap]
  exact ⟨trivial, trivial, fun op _ => plain_instrs op⟩

theorem plain_print (g : Globals) (text : List Char) : Plain (print g text) :=
  List.forall_mem_map.mpr fun _ _ => trivial

theorem plain_titles (g : Globals) : Plain (titles g) := by
  refine List.forall_mem_append.mpr ⟨List.forall_mem_append.mpr
    ⟨List.forall_mem_append.mpr ⟨?_, plain_print g _⟩, plain_instrs _⟩, ?_⟩
  · simp [Instr.Plain]
  · simp [Instr.Plain]

theorem plain_body (f : Call) : Plain f.body := by
  cases f with
  | log g file line ops => exact plain_statement g file line ops
  | exit | reset | setOutput | setOutputFile => simp [Call.body, Plain, Instr.Plain]

theorem plain_opened (path name : List Char) (g : Globals) (n : Nat)
    (error : Option (List Char)) : Plain (opened path name g n error) := by
  have hif : ∀ (p : Prop) [Decidable p] (l : List Instr), Plain l →
      Plain (if p then l else []) := by
    intro p _ l hl
    split_ifs
    · exact hl
    · simp [Plain]
  cases error with
  | some error => exact hif _ _ (plain_statement _ _ _ _)
  | none =>
      refine List.forall_mem_append.mpr ⟨hif _ _ (plain_statement _ _ _ _), ?_⟩
      simp [Instr.Plain]

end Plain

/-! ## Steps -/

section Steps

variable {tr : History ι} {s s' : State ι} {t : ι} {a : Action ι} {o : Output}

theorem charsOf_snoc (t : ι) (part : Output → List Char) (tr : History ι) (a : Action ι)
    (o : Output) : charsOf t part (tr ++ [(a, o)])
      = charsOf t part tr ++ if a.thread = t then part o else [] := by
  rw [charsOf, List.flatMap_append, List.flatMap_singleton]
  rfl

omit [DecidableEq ι] in
theorem flushedTo_snoc (tr : History ι) (a : Action ι) (o : Output) (output : Stream) :
    flushedTo (tr ++ [(a, o)]) output = flushedTo tr output ++ o.sent output := by
  rw [flushedTo, List.flatMap_append, List.flatMap_singleton]
  rfl

omit [DecidableEq ι] in
/-- A step that is no flush sends nothing. -/
theorem flushedTo_snoc_of_sent (tr : History ι) (a : Action ι)
    (hsent : ∀ output, o.sent output = []) : flushedTo (tr ++ [(a, o)]) = flushedTo tr := by
  funext output
  rw [flushedTo_snoc, hsent, List.append_nil]

omit [DecidableEq ι] in
theorem buffer_congr {u : ι} (h : s'.logs u = s.logs u) : s'.buffer u = s.buffer u := by
  rw [State.buffer, State.buffer, h]

omit [DecidableEq ι] in
theorem buffer_eq {i : Instance} (h : s.logs t = some i) : s.buffer t = i.state.stringStream := by
  rw [State.buffer, h]
  rfl

theorem goto_todo (s : State ι) (t : ι) (todo : List Instr) : (s.goto t todo).todo t = todo :=
  Function.update_self _ _ _

theorem goto_todo_of_ne {u : ι} (hu : u ≠ t) (s : State ι) (todo : List Instr) :
    (s.goto t todo).todo u = s.todo u :=
  Function.update_of_ne hu _ _

theorem setLog_logs (s : State ι) (t : ι) (log : Option Instance) : (s.setLog t log).logs t = log :=
  Function.update_self _ _ _

/-- What a thread writes comes into its buffer, what is settled leaves it, and other threads have
their own. -/
theorem conserved_step (h : Inv tr s) (ha : a.thread = t)
    (hothers : ∀ u, u ≠ t → s'.logs u = s.logs u)
    (hchars : s.buffer t ++ o.written = o.settled ++ s'.buffer t) (u : ι) :
    charsOf u Output.written (tr ++ [(a, o)])
      = charsOf u Output.settled (tr ++ [(a, o)]) ++ s'.buffer u := by
  rw [charsOf_snoc, charsOf_snoc, h.conserved u, ha]
  by_cases hu : t = u
  · subst hu
    rw [if_pos rfl, if_pos rfl, List.append_assoc, hchars, List.append_assoc]
  · rw [if_neg hu, if_neg hu, List.append_nil, List.append_nil,
      buffer_congr (hothers u (Ne.symm hu))]

omit [DecidableEq ι] in
/-- Where another thread is does not change, unless the lock changes hands or the thread has the
lock and characters are sent. -/
theorem Place.frame {sent sent' : Stream → List Char} {u : ι} (h : Place s sent u)
    (htodo : s'.todo u = s.todo u) (hlogs : s'.logs u = s.logs u)
    (hlock : s'.lock = some u ↔ s.lock = some u)
    (htext : s.lock = some u → s'.text = s.text ∧ sent' = sent) : Place s' sent' u := by
  cases h with
  | free hplain hfree => exact .free (htodo ▸ hplain) (mt hlock.mp hfree)
  | waiting hlog hblocked hwait hrest hfree =>
      exact .waiting (hlogs.trans hlog) hblocked (htodo.trans hwait) hrest (mt hlock.mp hfree)
  | writing hlog hblocked hbuffer hwrite hrest hheld hsent =>
      obtain ⟨ht, hs⟩ := htext hheld
      refine .writing (hlogs.trans hlog) hblocked hbuffer (htodo.trans hwrite) hrest
        (hlock.mpr hheld) ?_
      rw [ht, hs]
      exact hsent

/-- **A step outside of `sync`** leaves the lock and the streams alone. -/
theorem Inv.outside (h : Inv tr s) (ha : a.thread = t) (hlock : s'.lock = s.lock)
    (htext : s'.text = s.text)
    (hothers : ∀ u, u ≠ t → s'.logs u = s.logs u ∧ s'.todo u = s.todo u)
    (hsent : ∀ output, o.sent output = [])
    (hplace : Place s' (flushedTo tr) t)
    (hchars : s.buffer t ++ o.written = o.settled ++ s'.buffer t) :
    Inv (tr ++ [(a, o)]) s' := by
  have hflushed := flushedTo_snoc_of_sent tr a hsent
  refine ⟨?_, ?_, conserved_step h ha (fun u hu => (hothers u hu).1) hchars⟩
  · intro u
    rw [hflushed]
    by_cases hu : u = t
    · rwa [hu]
    · refine (h.place u).frame (hothers u hu).2 (hothers u hu).1 (by rw [hlock]) ?_
      exact fun _ => ⟨htext, rfl⟩
  · intro hfree
    rw [hflushed, htext]
    exact h.text (hlock ▸ hfree)

/-- The next instruction is another one, and nothing else has changed but the globals. -/
theorem Inv.goes (h : Inv tr s) (ha : a.thread = t) {s0 : State ι} {todo : List Instr}
    (hlock : s0.lock = s.lock) (htext : s0.text = s.text) (hlogs : s0.logs = s.logs)
    (htodo : s0.todo = s.todo) (hfree : s.lock ≠ some t) (hplain : Plain todo) :
    Inv (tr ++ [(a, .quiet)]) (s0.goto t todo) := by
  refine h.outside ha hlock htext ?_ (fun _ => rfl) ?_ ?_
  · intro u hu
    exact ⟨congrFun hlogs u, (Function.update_of_ne hu _ _).trans (congrFun htodo u)⟩
  · exact .free (by rwa [goto_todo]) (hlock ▸ hfree)
  · exact (List.append_nil _).trans (buffer_congr (congrFun hlogs t)).symm

/-- The log of the thread has changed too. -/
theorem Inv.changes (h : Inv tr s) (ha : a.thread = t) {log : Option Instance} {todo : List Instr}
    (hfree : s.lock ≠ some t) (hplain : Plain todo) (hsent : ∀ output, o.sent output = [])
    (hchars : s.buffer t ++ o.written = o.settled ++ chars log) :
    Inv (tr ++ [(a, o)]) ((s.setLog t log).goto t todo) := by
  refine h.outside ha rfl rfl ?_ hsent ?_ ?_
  · intro u hu
    exact ⟨Function.update_of_ne hu _ _, Function.update_of_ne hu _ _⟩
  · exact .free (by rwa [goto_todo]) hfree
  · exact hchars.trans (congrArg (o.settled ++ chars ·) (setLog_logs s t log).symm)

/-- What a call that changes members only adds to the buffer. -/
theorem call_stringStream {op : Op} (hplain : (Instr.member op).Plain) (st : Log.State) :
    (call st op).stringStream = st.stringStream ++ added st op := by
  cases op with
  | write c g => rfl
  | endl | flush | forceFlush | destroy => exact hplain.elim
  | indent | exdent | disableFlush | enableFlush | disableHeader | enableHeader | setLogInfo
  | setThreadName => exact (List.append_nil _).symm

/-- An instruction outside of `sync`. -/
theorem Inv.exec_plain {path : List Char} {instr : Instr} {rest : List Instr} (h : Inv tr s)
    (hfree : s.lock ≠ some t) (hplain : instr.Plain) (hrest : Plain rest)
    (he : s.exec path t rest instr = some (o, s')) : Inv (tr ++ [(.step t, o)]) s' := by
  cases instr with
  | lock | put | unlock => exact hplain.elim
  | titled | setStream | deleteFile | setFile =>
      cases he
      exact h.goes rfl rfl rfl rfl rfl hfree hrest
  | openFile name g error =>
      cases he
      refine h.goes rfl rfl rfl rfl rfl hfree ?_
      exact List.forall_mem_append.mpr ⟨plain_opened path name g s.files error, hrest⟩
  | instantiate g =>
      rw [State.exec] at he
      cases hlog : s.logs t with
      | some i =>
          rw [hlog] at he
          cases he
          exact h.goes rfl rfl rfl rfl rfl hfree hrest
      | none =>
          rw [hlog] at he
          cases he
          refine h.changes (t := t) rfl hfree ?_ (fun _ => rfl) ?_
          · split_ifs
            · exact List.forall_mem_cons.mpr
                ⟨trivial, List.forall_mem_append.mpr ⟨plain_titles g, hrest⟩⟩
            · exact hrest
          · rw [State.buffer, hlog]
            rfl
  | member op =>
      obtain ⟨i, hlog, he⟩ := Option.map_eq_some_iff.mp he
      cases he
      refine h.changes (t := t) rfl hfree hrest (fun _ => rfl) ?_
      rw [buffer_eq hlog]
      exact (call_stringStream hplain i.state).symm
  | sync last =>
      rw [State.exec] at he
      cases hlog : s.logs t with
      | none =>
          rw [hlog] at he
          cases he
          exact h.goes rfl rfl rfl rfl rfl hfree hrest
      | some i =>
          simp only [hlog] at he
          split_ifs at he with hblocked hlast
          · cases he
            refine h.outside rfl rfl rfl ?_ (fun _ => rfl) ?_ (List.append_nil _)
            · exact fun u hu => ⟨rfl, Function.update_of_ne hu _ _⟩
            · exact .waiting hlog hblocked (Function.update_self _ _ _) hrest hfree
          · cases he
            refine h.changes (t := t) rfl hfree hrest (fun _ => rfl) ?_
            rw [buffer_eq hlog, Instance.after, if_pos hlast]
            rfl
          · -- a flush that is disabled only begins a new line
            cases he
            refine h.changes (t := t) rfl hfree hrest (fun _ => rfl) ?_
            rw [buffer_eq hlog, Instance.after, if_neg hlast, chars, Log.State.sync,
              if_neg hblocked]
            exact List.append_nil _

/-- The thread gets the lock. -/
theorem Inv.exec_lock {path : List Char} {i : Instance} {last : Bool} {rest : List Instr}
    (h : Inv tr s) (hlog : s.logs t = some i) (hblocked : i.state.blocked = 0)
    (hrest : Plain rest)
    (he : s.exec path t (i.state.stringStream.map .put ++ .unlock last :: rest) .lock
      = some (o, s')) : Inv (tr ++ [(.step t, o)]) s' := by
  obtain ⟨hfree, he⟩ := Option.ite_none_right_eq_some.mp he
  cases he
  have hflushed := flushedTo_snoc_of_sent tr (.step t) (o := .quiet) fun _ => rfl
  refine ⟨?_, nofun, conserved_step h rfl (fun _ _ => rfl) (List.append_nil _)⟩
  intro u
  rw [hflushed]
  by_cases hu : u = t
  · subst hu
    refine .writing hlog hblocked (List.nil_append _).symm (Function.update_self _ _ _) hrest rfl ?_
    intro output
    rw [ite_self, List.append_nil, ← h.text hfree]
    rfl
  · refine (h.place u).frame (Function.update_of_ne hu _ _) rfl ?_ ?_
    · rw [hfree]
      exact iff_of_false (fun he => hu (Option.some.inj he).symm) nofun
    · exact fun _ => ⟨rfl, rfl⟩

omit [DecidableEq ι] in
/-- The other threads, while this one has the lock. -/
theorem Place.other {sent sent' : Stream → List Char} {u : ι} (h : Place s sent u) (hu : u ≠ t)
    (hheld : s.lock = some t) (hlogs : s'.logs u = s.logs u) (htodo : s'.todo u = s.todo u)
    (hlock : s'.lock ≠ some u) : Place s' sent' u := by
  have hne : s.lock ≠ some u := by
    rw [hheld]
    exact fun he => hu (Option.some.inj he).symm
  exact h.frame htodo hlogs (iff_of_false hlock hne) (fun hu => absurd hu hne)

/-- The stream gets a character. -/
theorem Inv.exec_put {path : List Char} {i : Instance} {begun left : List Char} {last : Bool}
    {rest : List Instr} {c : Char} (h : Inv tr s) (hlog : s.logs t = some i)
    (hblocked : i.state.blocked = 0) (hbuffer : i.state.stringStream = begun ++ c :: left)
    (hrest : Plain rest) (hlock : s.lock = some t)
    (htext : ∀ output, s.text output
      = flushedTo tr output ++ if i.output = output then begun else [])
    (he : s.exec path t (left.map .put ++ .unlock last :: rest) (.put c) = some (o, s'))
    (hok : s'.fault = false) : Inv (tr ++ [(.step t, o)]) s' := by
  rw [State.exec, hlog, Option.map_some, Option.some.injEq] at he
  split_ifs at he
  case neg => cases he; cases hok
  cases he
  have hflushed := flushedTo_snoc_of_sent tr (.step t) (o := .quiet) fun _ => rfl
  refine ⟨?_, fun hfree => ?_, conserved_step h rfl (fun _ _ => rfl) (List.append_nil _)⟩
  · intro u
    rw [hflushed]
    by_cases hu : u = t
    · subst hu
      have hmore : i.state.stringStream = begun ++ [c] ++ left := by
        rw [hbuffer, List.append_assoc, List.singleton_append]
      refine .writing hlog hblocked hmore (goto_todo _ _ _) hrest hlock ?_
      · intro output
        by_cases ho : i.output = output
        · subst ho
          refine (Function.update_self _ _ _).trans ?_
          rw [htext, if_pos rfl, if_pos rfl, List.append_assoc]
        · refine (Function.update_of_ne (Ne.symm ho) _ _).trans ?_
          rw [htext, if_neg ho, if_neg ho]
    · refine (h.place u).other hu hlock rfl (Function.update_of_ne hu _ _) ?_
      exact fun he => hu (Option.some.inj (he.symm.trans hlock))
  · exact absurd (hfree.symm.trans hlock) nofun

/-- The thread gives the lock back, with its buffer in the stream. -/
theorem Inv.exec_unlock {path : List Char} {i : Instance} {begun : List Char} {last : Bool}
    {rest : List Instr} (h : Inv tr s) (hlog : s.logs t = some i) (hblocked : i.state.blocked = 0)
    (hbuffer : i.state.stringStream = begun) (hrest : Plain rest) (hlock : s.lock = some t)
    (htext : ∀ output, s.text output
      = flushedTo tr output ++ if i.output = output then begun else [])
    (he : s.exec path t rest (.unlock last) = some (o, s')) (hok : s'.fault = false) :
    Inv (tr ++ [(.step t, o)]) s' := by
  rw [State.exec, hlog, Option.map_some, Option.some.injEq] at he
  split_ifs at he
  case neg => cases he; cases hok
  cases he
  refine ⟨?_, fun _ => ?_, ?_⟩
  · intro u
    by_cases hu : u = t
    · subst hu
      refine .free ?_ nofun
      rwa [goto_todo]
    · exact (h.place u).other hu hlock (Function.update_of_ne hu _ _) (Function.update_of_ne hu _ _)
        nofun
  · funext output
    rw [flushedTo_snoc, Output.sent, hbuffer]
    exact htext output
  · refine conserved_step (t := t) h rfl (fun u hu => Function.update_of_ne hu _ _) ?_
    have hempty : chars (i.after last) = [] := by
      rw [Instance.after]
      split_ifs
      · rfl
      · rw [chars, Log.State.sync, if_pos hblocked]
    rw [buffer_eq hlog, State.buffer]
    refine congrArg (i.state.stringStream ++ ·) ?_
    exact ((congrArg chars (setLog_logs _ t _)).trans hempty).symm

theorem inv_step {path : List Char} (h : Inv tr s) (hs : (threads path).step s a = some (o, s'))
    (hok : s'.fault = false) : Inv (tr ++ [(a, o)]) s' := by
  cases a with
  | call t f =>
      obtain ⟨-, hempty, rfl, rfl⟩ := of_call hs
      refine h.goes rfl rfl rfl rfl rfl ?_ (plain_body f)
      -- a thread that has the lock has something to do
      cases h.place t with
      | free _ hfree => exact hfree
      | waiting _ _ _ _ hfree => exact hfree
      | writing _ _ _ htodo => simp [hempty] at htodo
  | step t =>
      obtain ⟨-, instr, rest, hnext, he⟩ := of_step hs
      cases h.place t with
      | free hplain hfree =>
          rw [hnext, Plain, List.forall_mem_cons] at hplain
          exact h.exec_plain hfree hplain.1 hplain.2 he
      | waiting hlog hblocked htodo hrest hfree =>
          rw [hnext] at htodo
          cases htodo
          exact h.exec_lock hlog hblocked hrest he
      | @writing i begun left last rest hlog hblocked hbuffer htodo hrest hlock htext =>
          rw [hnext] at htodo
          cases left with
          | nil =>
              cases htodo
              rw [List.append_nil] at hbuffer
              exact h.exec_unlock hlog hblocked hbuffer hrest hlock htext he hok
          | cons c left =>
              cases htodo
              exact h.exec_put hlog hblocked hbuffer hrest hlock htext he hok

end Steps

theorem inv_init (path : List Char) : Inv [] (threads (ι := ι) path).init := by
  refine ⟨fun t => .free ?_ nofun, fun _ => rfl, fun _ => rfl⟩
  exact fun _ h => absurd h List.not_mem_nil

theorem inv_of_trace {path : List Char} {tr : History ι} {s : State ι}
    (h : (threads path).Trace tr s) (hok : s.fault = false) : Inv tr s := by
  induction h with
  | nil => exact inv_init path
  | snoc _ hs ih => exact inv_step (ih (not_fault_of_step hs)) hs hok

/-- **Lines of different threads do not mix, and nothing is lost or written twice.** After every
history of any number of threads, which may log, flush, redirect the output, end and start again at
any time, the text of each stream consists of the buffers that were flushed to it, each in one
piece, and the beginning of the one that is being flushed. What a thread has written to its logs was
flushed once and in its order, or lost with a log whose flush was disabled, or is in its buffer.
This is so as long as no deleted file was accessed. -/
theorem texts_whole {path : List Char} {tr : History ι} {s : State ι}
    (h : (threads path).Trace tr s) (hok : s.fault = false) :
    Whole tr s ∧
      ∀ t, charsOf t Output.written tr = charsOf t Output.settled tr ++ s.buffer t := by
  have hinv := inv_of_trace h hok
  refine ⟨?_, hinv.conserved⟩
  unfold Whole
  split
  · rename_i hfree
    exact hinv.text hfree
  · rename_i t hheld
    cases hinv.place t with
    | free _ hno => exact absurd hheld hno
    | waiting _ _ _ _ hno => exact absurd hheld hno
    | writing hlog _ hbuffer _ _ _ htext => exact ⟨_, _, _, hlog, hbuffer, htext⟩

/-- Two threads flush at the same time; the second one gets the lock first. -/
def twoLines : List (Action Bool) :=
  let line c : Call := .log ⟨1, 7, 0⟩ [] 0 [.disableHeader, .write c ⟨1, 7, 0⟩, .endl ⟨1, 7, 0⟩]
  [.call false (line 'a'), .call true (line 'b')] ++
    List.replicate 6 (.step false) ++ List.replicate 8 (.step true) ++
    [.step true, .step true, .step false, .step false]

theorem two_lines_whole :
    ∃ tr s, (threads []).run twoLines (threads []).init = some (tr, s) ∧ s.fault = false ∧
      s.text .standard = ['b', '\n', 'a'] ∧ flushedTo tr .standard = ['b', '\n'] ∧ Whole tr s ∧
      ∀ t, charsOf t Output.written tr = charsOf t Output.settled tr ++ s.buffer t := by
  have hr : (threads []).run twoLines (threads []).init = some (_, _) := rfl
  exact ⟨_, _, hr, rfl, by decide, by decide, texts_whole (Machine.Trace.of_run twoLines hr) rfl⟩

end Lunchbox.Log.Threads
