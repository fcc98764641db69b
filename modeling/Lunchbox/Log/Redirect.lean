import Lunchbox.Log.Threads

set_option autoImplicit false

/-! # Redirecting the output

`setOutput` and `reset` delete the file that the logs were written to. They only destroy the log of
the thread that calls them, while the logs of other threads keep a reference to the file; and in
`reset` the deleted file is the output until the standard output is restored, so that a thread
that begins to log in between gets a log on it.

These are the only ways to a log on a deleted file, as long as the functions are not called
concurrently with each other (`redirection_safe_iff`).
-/

namespace Lunchbox.Log.Threads

open StateMachine

variable {ι : Type}

/-! ## The property and the conditions -/

/-- Every log is on a stream that exists, and no file was deleted twice. -/
def Sound (_tr : History ι) (s : State ι) : Prop :=
  (∀ t i, s.logs t = some i → s.Exists i.output) ∧ s.deleted.Nodup

/-- The instructions that access the output and the file. -/
def Instr.redirects : Instr → Bool
  | .openFile _ _ _ => true
  | .setStream _ => true
  | .deleteFile => true
  | .setFile _ => true
  | _ => false

/-- What is left of `setOutput` or `reset`. -/
def pending (todo : List Instr) : List Instr := todo.filter Instr.redirects

/-- `setOutput` and `reset` are not called before the other calls of them have returned. -/
def Serial (s : State ι) : Action ι → Prop
  | .call _ f => pending f.body = [] ∨ ∀ u, pending (s.todo u) = []
  | .step _ => True

/-- No thread has a log on the file that is deleted, and no log is constructed on a deleted file. -/
def State.Allows (s : State ι) (t : ι) : Instr → Prop
  | .deleteFile => ∀ f ∈ s.file, ∀ u, ∀ i ∈ s.logs u, i.output ≠ .file f
  | .instantiate _ => s.logs t = none → s.Exists s.stream
  | _ => True

def Unused (s : State ι) : Action ι → Prop
  | .call _ _ => True
  | .step t => ∀ instr ∈ (s.todo t).head?, s.Allows t instr

instance [Fintype ι] (s : State ι) : DecidablePred (Serial s)
  | .call _ f =>
      have (l : List Instr) : Decidable (l = []) := decidable_of_iff _ List.isEmpty_iff
      inferInstanceAs (Decidable (pending f.body = [] ∨ ∀ u, pending (s.todo u) = []))
  | .step _ => isTrue trivial

instance [Fintype ι] (s : State ι) (t : ι) : DecidablePred (s.Allows t)
  | .deleteFile => inferInstanceAs (Decidable (∀ f ∈ s.file, ∀ u, ∀ i ∈ s.logs u, _))
  | .instantiate _ =>
      have : Decidable (s.logs t = none) := decidable_of_iff _ Option.isNone_iff_eq_none
      inferInstanceAs (Decidable (s.logs t = none → s.Exists s.stream))
  | .titled | .member _ | .sync _ | .lock | .put _ | .unlock _ | .openFile _ _ _ | .setStream _
  | .setFile _ => isTrue trivial

instance [Fintype ι] (s : State ι) : DecidablePred (Unused s)
  | .call _ _ => isTrue trivial
  | .step t => inferInstanceAs (Decidable (∀ instr ∈ (s.todo t).head?, s.Allows t instr))

/-! ## The phases of a redirection -/

/-- Outside of a redirection the file exists, and it is the output if that is a file. -/
def Normal (s : State ι) : Prop :=
  (∀ f, s.file = some f → f ∉ s.deleted) ∧ ∀ f, s.stream = .file f → s.file = some f

/-- What holds of the globals depending on what is left of a redirection. -/
inductive Phase (s : State ι) : List Instr → Prop
  | none (h : Normal s) : Phase s []
  | openFile {name : List Char} {g : Globals} {error : Option (List Char)} (h : Normal s) :
      Phase s [.openFile name g error]
  | setUser {n : Nat} (h : Normal s) : Phase s [.setStream (.user n)]
  /-- `reset` -/
  | reset (h : Normal s) : Phase s [.deleteFile, .setFile none, .setStream .standard]
  | resetDeleted : Phase s [.setFile none, .setStream .standard]
  | resetFile (h : s.file = none) : Phase s [.setStream .standard]
  /-- `setOutput`, with the new file `n` -/
  | opened {n : Nat} (h : Normal s) (hlt : n < s.files) (hn : n ∉ s.deleted)
      (hfile : s.file ≠ some n) :
      Phase s [.setStream (.file n), .deleteFile, .setFile (some n)]
  | redirected {n : Nat} (hstream : s.stream = .file n) (hlt : n < s.files) (hn : n ∉ s.deleted)
      (hfile : s.file ≠ some n) (h : ∀ f, s.file = some f → f ∉ s.deleted) :
      Phase s [.deleteFile, .setFile (some n)]
  | deleted {n : Nat} (hstream : s.stream = .file n) (hlt : n < s.files) (hn : n ∉ s.deleted) :
      Phase s [.setFile (some n)]

/-- The redirection in progress, of which there is at most one. -/
def Redirecting (s : State ι) (rest : List Instr) : Prop :=
  (rest = [] ∧ ∀ u, pending (s.todo u) = []) ∨
    ∃ t, pending (s.todo t) = rest ∧ ∀ u, u ≠ t → pending (s.todo u) = []

/-- The files are known by their numbers. -/
structure Bounded (s : State ι) : Prop where
  file : ∀ f, s.file = some f → f < s.files
  deleted : ∀ f ∈ s.deleted, f < s.files

structure Tidy (s : State ι) : Prop where
  bounded : Bounded s
  phase : ∃ rest, Redirecting s rest ∧ Phase s rest

/-! ## What is pending -/

section Pending

@[simp] theorem pending_nil : pending [] = [] := rfl

@[simp] theorem pending_append (l l' : List Instr) : pending (l ++ l') = pending l ++ pending l' :=
  List.filter_append _ _

theorem pending_cons (instr : Instr) (l : List Instr) :
    pending (instr :: l) = if instr.redirects then instr :: pending l else pending l :=
  List.filter_cons

theorem pending_of_quiet {l : List Instr} (h : ∀ instr ∈ l, instr.redirects = false) :
    pending l = [] :=
  List.filter_eq_nil_iff.mpr fun instr hi => by simp [h instr hi]

theorem quiet_instrs (op : Op) : ∀ instr ∈ instrs op, instr.redirects = false := by
  cases op <;> simp [instrs, Instr.redirects]

@[simp] theorem pending_statement (g : Globals) (file : List Char) (line : Int) (ops : List Op) :
    pending (statement g file line ops) = [] := by
  apply pending_of_quiet
  simp only [statement, List.forall_mem_cons, List.forall_mem_flatMap]
  exact ⟨rfl, rfl, fun op _ => quiet_instrs op⟩

@[simp] theorem pending_print (g : Globals) (text : List Char) : pending (print g text) = [] :=
  pending_of_quiet (List.forall_mem_map.mpr fun _ _ => rfl)

@[simp] theorem pending_titles (g : Globals) : pending (titles g) = [] := by
  rw [titles, pending_append, pending_append, pending_append, pending_print]
  rfl

@[simp] theorem pending_put (text : List Char) : pending (text.map .put) = [] :=
  pending_of_quiet (List.forall_mem_map.mpr fun _ _ => rfl)

theorem pending_opened_some (path name : List Char) (g : Globals) (n : Nat) (error : List Char) :
    pending (opened path name g n (some error)) = [] := by
  rw [opened]
  split_ifs
  · exact pending_statement _ _ _ _
  · rfl

theorem pending_opened_none (path name : List Char) (g : Globals) (n : Nat) :
    pending (opened path name g n none)
      = [.setStream (.file n), .deleteFile, .setFile (some n)] := by
  rw [opened, pending_append]
  split_ifs
  · rw [pending_statement]
    rfl
  · rfl

end Pending

/-! ## Steps -/

section Steps

variable [DecidableEq ι] {tr : History ι} {s s' : State ι} {t : ι} {o : Output} {path : List Char}
  {instr : Instr} {rest : List Instr}

/-- An instruction that does not redirect leaves the globals alone, and nothing new is pending. -/
structure Quiet (s s' : State ι) (t : ι) (rest : List Instr) : Prop where
  stream : s'.stream = s.stream
  file : s'.file = s.file
  files : s'.files = s.files
  deleted : s'.deleted = s.deleted
  pending : pending (s'.todo t) = Threads.pending rest
  others : ∀ u, u ≠ t → s'.todo u = s.todo u

theorem quiet_goto {s0 : State ι} {todo : List Instr} (hstream : s0.stream = s.stream)
    (hfile : s0.file = s.file) (hfiles : s0.files = s.files) (hdeleted : s0.deleted = s.deleted)
    (htodo : s0.todo = s.todo) (hpending : pending todo = pending rest) :
    Quiet s (s0.goto t todo) t rest := by
  refine ⟨hstream, hfile, hfiles, hdeleted, ?_, ?_⟩
  · rw [goto_todo, hpending]
  · intro u hu
    exact (Function.update_of_ne hu _ _).trans (congrFun htodo u)

theorem exec_quiet (hquiet : instr.redirects = false)
    (he : s.exec path t rest instr = some (o, s')) : Quiet s s' t rest := by
  cases instr with
  | openFile | setStream | deleteFile | setFile => cases hquiet
  | titled =>
      cases he
      exact quiet_goto rfl rfl rfl rfl rfl rfl
  | instantiate g =>
      rw [State.exec] at he
      split at he
      · cases he
        exact quiet_goto rfl rfl rfl rfl rfl rfl
      · cases he
        refine quiet_goto rfl rfl rfl rfl rfl ?_
        split_ifs
        · rw [pending_cons, pending_append, pending_titles]
          rfl
        · rfl
  | lock =>
      obtain ⟨-, he⟩ := Option.ite_none_right_eq_some.mp he
      cases he
      exact quiet_goto rfl rfl rfl rfl rfl rfl
  | member op =>
      obtain ⟨i, -, he⟩ := Option.map_eq_some_iff.mp he
      cases he
      exact quiet_goto rfl rfl rfl rfl rfl rfl
  | put | unlock =>
      obtain ⟨i, -, he⟩ := Option.map_eq_some_iff.mp he
      split_ifs at he
      · cases he
        exact quiet_goto rfl rfl rfl rfl rfl rfl
      · cases he
        exact quiet_goto rfl rfl rfl rfl rfl rfl
  | sync last =>
      rw [State.exec] at he
      split at he
      · cases he
        exact quiet_goto rfl rfl rfl rfl rfl rfl
      · split_ifs at he
        · cases he
          refine quiet_goto rfl rfl rfl rfl rfl ?_
          rw [pending_cons, pending_append, pending_put, pending_cons]
          rfl
        · cases he
          exact quiet_goto rfl rfl rfl rfl rfl rfl
        · cases he
          exact quiet_goto rfl rfl rfl rfl rfl rfl

/-- A log is one that was there before, or a new one on the output. -/
def FromOutput (s : State ι) (t u : ι) (instr : Instr) (i : Instance) : Prop :=
  (∃ j, s.logs u = some j ∧ j.output = i.output) ∨
    ∃ g, instr = .instantiate g ∧ u = t ∧ s.logs t = none ∧ i.output = s.stream

omit [DecidableEq ι] in
theorem FromOutput.same {u : ι} {i : Instance} (h : s.logs u = some i) :
    FromOutput s t u instr i :=
  Or.inl ⟨i, h, rfl⟩

theorem fromOutput_setLog {u : ι} {i j : Instance} {log : Option Instance}
    (hlog : s.logs t = some j) (hout : ∀ k, log = some k → k.output = j.output)
    (h : Function.update s.logs t log u = some i) : FromOutput s t u instr i := by
  rcases update_cases h with ⟨rfl, he⟩ | ⟨-, h⟩
  · exact Or.inl ⟨j, hlog, (hout i he.symm).symm⟩
  · exact .same h

theorem after_output {i j : Instance} {last : Bool} (h : i.after last = some j) :
    j.output = i.output := by
  rw [Instance.after] at h
  split_ifs at h
  cases h
  rfl

theorem exec_logs (he : s.exec path t rest instr = some (o, s')) {u : ι} {i : Instance}
    (h : s'.logs u = some i) : FromOutput s t u instr i := by
  cases instr with
  | titled | openFile | setStream | deleteFile | setFile =>
      cases he
      exact .same h
  | lock =>
      obtain ⟨-, he⟩ := Option.ite_none_right_eq_some.mp he
      cases he
      exact .same h
  | put c =>
      obtain ⟨j, -, he⟩ := Option.map_eq_some_iff.mp he
      split_ifs at he
      · cases he
        exact .same h
      · cases he
        exact .same h
  | instantiate g =>
      rw [State.exec] at he
      split at he
      · cases he
        exact .same h
      · rename_i hnone
        cases he
        rcases update_cases h with ⟨rfl, he⟩ | ⟨-, h⟩
        · cases he
          exact Or.inr ⟨g, rfl, rfl, hnone, rfl⟩
        · exact .same h
  | member op =>
      obtain ⟨j, hlog, he⟩ := Option.map_eq_some_iff.mp he
      cases he
      refine fromOutput_setLog hlog ?_ h
      rintro k ⟨⟩
      rfl
  | unlock last =>
      obtain ⟨j, hlog, he⟩ := Option.map_eq_some_iff.mp he
      split_ifs at he
      · cases he
        exact fromOutput_setLog hlog (fun k => after_output) h
      · cases he
        exact .same h
  | sync last =>
      rw [State.exec] at he
      split at he
      · cases he
        exact .same h
      · rename_i j hlog
        split_ifs at he
        · cases he
          exact .same h
        · cases he
          exact fromOutput_setLog hlog (fun k => after_output) h
        · cases he
          exact fromOutput_setLog hlog (fun k => after_output) h

/-! ### The phases -/

omit [DecidableEq ι] in
/-- A phase is about the globals. -/
theorem Phase.congr {l : List Instr} (h : Phase s l) (hstream : s'.stream = s.stream)
    (hfile : s'.file = s.file) (hfiles : s'.files = s.files) (hdeleted : s'.deleted = s.deleted) :
    Phase s' l := by
  have hnormal : Normal s → Normal s' := by
    intro h
    rwa [Normal, hstream, hfile, hdeleted]
  cases h with
  | none h => exact .none (hnormal h)
  | openFile h => exact .openFile (hnormal h)
  | setUser h => exact .setUser (hnormal h)
  | reset h => exact .reset (hnormal h)
  | resetDeleted => exact .resetDeleted
  | resetFile h => exact .resetFile (hfile.trans h)
  | opened h hlt hn hne =>
      exact .opened (hnormal h) (hfiles ▸ hlt) (hdeleted ▸ hn) (hfile ▸ hne)
  | redirected hs hlt hn hne h =>
      refine .redirected (hstream.trans hs) (hfiles ▸ hlt) (hdeleted ▸ hn) (hfile ▸ hne) ?_
      rwa [hfile, hdeleted]
  | deleted hs hlt hn => exact .deleted (hstream.trans hs) (hfiles ▸ hlt) (hdeleted ▸ hn)

omit [DecidableEq ι] in
/-- A thread with something pending is the one that redirects. -/
theorem Redirecting.eq {l : List Instr} (h : Redirecting s l) (hne : pending (s.todo t) ≠ []) :
    l = pending (s.todo t) ∧ ∀ u, u ≠ t → pending (s.todo u) = [] := by
  rcases h with ⟨-, h⟩ | ⟨t', rfl, h⟩
  · exact absurd (h t) hne
  · by_cases ht : t = t'
    · subst ht
      exact ⟨rfl, h⟩
    · exact absurd (h t ht) hne

omit [DecidableEq ι] in
/-- The same is pending as before. -/
theorem Redirecting.congr {l : List Instr} (h : Redirecting s l)
    (hpending : ∀ u, pending (s'.todo u) = pending (s.todo u)) : Redirecting s' l := by
  rcases h with ⟨hl, h⟩ | ⟨t, ht, h⟩
  · exact Or.inl ⟨hl, fun u => (hpending u).trans (h u)⟩
  · exact Or.inr ⟨t, (hpending t).trans ht, fun u hu => (hpending u).trans (h u hu)⟩

theorem Tidy.quiet (h : Tidy s) (htodo : s.todo t = instr :: rest)
    (hinstr : instr.redirects = false) (hs : Quiet s s' t rest) : Tidy s' := by
  obtain ⟨l, hl, hphase⟩ := h.phase
  refine ⟨⟨?_, ?_⟩, l, hl.congr ?_, hphase.congr hs.stream hs.file hs.files hs.deleted⟩
  · rw [hs.file, hs.files]
    exact h.bounded.file
  · rw [hs.deleted, hs.files]
    exact h.bounded.deleted
  · intro u
    by_cases hu : u = t
    · rw [hu, hs.pending, htodo, pending_cons, hinstr]
      rfl
    · rw [hs.others u hu]

/-- The thread that redirects has done the next part of it. -/
theorem tidy_goto {s0 : State ι} {todo : List Instr} (htodo : s0.todo = s.todo)
    (hothers : ∀ u, u ≠ t → pending (s.todo u) = []) (hbounded : Bounded s0)
    (hphase : Phase s0 (pending todo)) : Tidy (s0.goto t todo) := by
  refine ⟨⟨hbounded.file, hbounded.deleted⟩, pending todo, Or.inr ⟨t, ?_, ?_⟩,
    hphase.congr rfl rfl rfl rfl⟩
  · rw [goto_todo]
  · intro u hu
    rw [goto_todo_of_ne hu, htodo]
    exact hothers u hu

theorem Tidy.redirects (h : Tidy s) (htodo : s.todo t = instr :: rest)
    (hinstr : instr.redirects = true) (he : s.exec path t rest instr = some (o, s')) :
    Tidy s' := by
  obtain ⟨l, hl, hphase⟩ := h.phase
  have hpending : pending (s.todo t) = instr :: pending rest := by
    rw [htodo, pending_cons, if_pos hinstr]
  obtain ⟨rfl, hothers⟩ := hl.eq (t := t) (by simp [hpending])
  rw [hpending] at hphase
  have hb := h.bounded
  cases instr with
  | instantiate | titled | member | sync | lock | put | unlock => cases hinstr
  | openFile name g error =>
      cases he
      generalize hrest : pending rest = l at hphase
      cases hphase with
      | openFile hn =>
          cases error with
          | some error =>
              refine tidy_goto rfl hothers ⟨hb.file, hb.deleted⟩ ?_
              rw [pending_append, pending_opened_some, hrest]
              exact .none hn
          | none =>
              refine tidy_goto rfl hothers ⟨?_, ?_⟩ ?_
              · exact fun f hf => Nat.lt_succ_of_lt (hb.file f hf)
              · exact fun f hf => Nat.lt_succ_of_lt (hb.deleted f hf)
              · -- the new file has the next number, which no file before it has
                rw [pending_append, pending_opened_none, hrest]
                refine .opened hn (Nat.lt_succ_self _) ?_ ?_
                · exact fun hf => Nat.lt_irrefl _ (hb.deleted _ hf)
                · exact fun hf => Nat.lt_irrefl _ (hb.file _ hf)
  | setStream output =>
      cases he
      generalize hrest : pending rest = l at hphase
      refine tidy_goto rfl hothers ⟨hb.file, hb.deleted⟩ ?_
      rw [hrest]
      cases hphase with
      | setUser hn => exact .none ⟨hn.1, nofun⟩
      | resetFile hfile => exact .none ⟨fun f hf => (nomatch hfile.symm.trans hf), nofun⟩
      | opened hn hlt hdel hne => exact .redirected rfl hlt hdel hne hn.1
  | deleteFile =>
      cases he
      generalize hrest : pending rest = l at hphase
      refine tidy_goto rfl hothers ⟨hb.file, ?_⟩ ?_
      · intro f hf
        rcases List.mem_append.mp hf with hf | hf
        · exact hb.deleted f hf
        · exact hb.file f (Option.mem_toList.mp hf)
      · rw [hrest]
        -- the output is another file already, or will be the standard one
        cases hphase with
        | reset => exact .resetDeleted
        | redirected hs hlt hdel hne =>
            refine .deleted hs hlt ?_
            rw [List.mem_append, Option.mem_toList]
            exact not_or.mpr ⟨hdel, hne⟩
  | setFile file =>
      cases he
      generalize hrest : pending rest = l at hphase
      cases hphase with
      | resetDeleted =>
          refine tidy_goto rfl hothers ⟨nofun, hb.deleted⟩ ?_
          rw [hrest]
          exact .resetFile rfl
      | @deleted n hs hlt hdel =>
          refine tidy_goto rfl hothers ⟨?_, hb.deleted⟩ ?_
          · rintro f ⟨⟩
            exact hlt
          · rw [hrest]
            refine .none ⟨?_, ?_⟩
            · rintro f ⟨⟩
              exact hdel
            · intro f hf
              exact congrArg some (Stream.file.inj (hs.symm.trans hf))

theorem tidy_step {a : Action ι} (h : Tidy s) (hserial : Serial s a)
    (hs : (threads path).step s a = some (o, s')) : Tidy s' := by
  cases a with
  | step t =>
      obtain ⟨-, instr, rest, htodo, he⟩ := of_step hs
      cases hinstr : instr.redirects with
      | false => exact h.quiet htodo hinstr (exec_quiet hinstr he)
      | true => exact h.redirects htodo hinstr he
  | call t f =>
      obtain ⟨-, hempty, rfl, rfl⟩ := of_call hs
      obtain ⟨l, hl, hphase⟩ := h.phase
      rcases hserial with hbody | hnone
      · -- the call does not redirect, and what is pending stays so
        refine ⟨⟨h.bounded.file, h.bounded.deleted⟩, l, hl.congr ?_, hphase.congr rfl rfl rfl rfl⟩
        intro u
        by_cases hu : u = t
        · rw [hu, goto_todo, hbody, hempty]
          rfl
        · rw [goto_todo_of_ne hu]
      · -- the redirection starts in a normal state
        have hnormal : Normal s := by
          rcases hl with ⟨rfl, -⟩ | ⟨u, rfl, -⟩
          · cases hphase with
            | none hn => exact hn
          · rw [hnone u] at hphase
            cases hphase with
            | none hn => exact hn
        refine tidy_goto rfl (fun u _ => hnone u) h.bounded ?_
        cases f with
        | log g file line ops =>
            rw [Call.body, pending_statement]
            exact .none hnormal
        | exit => exact .none hnormal
        | reset => exact .reset hnormal
        | setOutput n => exact .setUser hnormal
        | setOutputFile => exact .openFile hnormal

/-! ### Logs on existing streams -/

omit [DecidableEq ι] in
theorem exists_congr (h : s'.deleted = s.deleted) (output : Stream) :
    s'.Exists output ↔ s.Exists output := by
  cases output with
  | standard | user => exact Iff.rfl
  | file n => rw [State.Exists, State.Exists, h]

omit [DecidableEq ι] in
/-- The file that is about to be deleted exists. -/
theorem Tidy.file_exists (h : Tidy s) (htodo : s.todo t = .deleteFile :: rest) {f : Nat}
    (hf : s.file = some f) : f ∉ s.deleted := by
  obtain ⟨l, hl, hphase⟩ := h.phase
  have hpending : pending (s.todo t) = .deleteFile :: pending rest := by
    rw [htodo]
    rfl
  obtain ⟨rfl, -⟩ := hl.eq (t := t) (by simp [hpending])
  rw [hpending] at hphase
  generalize pending rest = l at hphase
  cases hphase with
  | reset hn => exact hn.1 f hf
  | redirected _ _ _ _ hn => exact hn f hf

/-- Deleting the file is safe exactly if there is no log on it. -/
theorem sound_deleteFile (hsound : Sound tr s) {tr' : History ι} (h : Tidy s)
    (htodo : s.todo t = .deleteFile :: rest)
    (he : s.exec path t rest .deleteFile = some (o, s')) :
    Sound tr' s' ↔ s.Allows t .deleteFile := by
  cases he
  have hdeleted : (s.deleted ++ s.file.toList).Nodup := by
    cases hfile : s.file with
    | none => simpa using hsound.2
    | some f =>
        rw [Option.toList_some, List.nodup_append_comm, List.singleton_append, List.nodup_cons]
        exact ⟨h.file_exists htodo hfile, hsound.2⟩
  constructor
  · intro hs f hf u i hi hout
    have hex := hs.1 u i hi
    rw [hout] at hex
    exact hex (List.mem_append_right _ (Option.mem_toList.mpr hf))
  · intro hunused
    refine ⟨?_, hdeleted⟩
    intro u i hi
    have hex := hsound.1 u i hi
    cases hout : i.output with
    | standard | user => trivial
    | file n =>
        rw [hout] at hex
        intro hn
        rcases List.mem_append.mp hn with hn | hn
        · exact hex hn
        · exact hunused n (Option.mem_toList.mp hn) u i hi hout

/-- Any other instruction is safe, unless it constructs a log. -/
theorem sound_exec (hsound : Sound tr s) {tr' : History ι} (hne : instr ≠ .deleteFile)
    (he : s.exec path t rest instr = some (o, s')) : Sound tr' s' ↔ s.Allows t instr := by
  have hdeleted : s'.deleted = s.deleted := by
    cases instr with
    | deleteFile => exact absurd rfl hne
    | openFile | setStream | setFile =>
        cases he
        rfl
    | instantiate | titled | member | sync | lock | put | unlock =>
        exact (exec_quiet rfl he).deleted
  constructor
  · intro hs
    cases instr with
    | deleteFile => exact absurd rfl hne
    | instantiate g =>
        intro hnone
        simp only [State.exec, hnone] at he
        cases he
        exact hs.1 t _ (setLog_logs s t _)
    | titled | member | sync | lock | put | unlock | openFile | setStream | setFile => trivial
  · intro hallows
    refine ⟨?_, by rw [hdeleted]; exact hsound.2⟩
    intro u i hi
    rw [exists_congr hdeleted]
    rcases exec_logs he hi with ⟨j, hj, hout⟩ | ⟨g, rfl, -, hnone, hout⟩
    · rw [← hout]
      exact hsound.1 u j hj
    · rw [hout]
      exact hallows hnone

theorem sound_step {a : Action ι} {tr' : History ι} (hsound : Sound tr s) (h : Tidy s)
    (hs : (threads path).step s a = some (o, s')) : Sound tr' s' ↔ Unused s a := by
  cases a with
  | call t f =>
      obtain ⟨-, -, rfl, rfl⟩ := of_call hs
      exact iff_of_true hsound trivial
  | step t =>
      obtain ⟨-, instr, rest, htodo, he⟩ := of_step hs
      have hunused : Unused s (.step t) ↔ s.Allows t instr := by
        simp [Unused, htodo]
      rw [hunused]
      by_cases hd : instr = .deleteFile
      · subst hd
        exact sound_deleteFile hsound h htodo he
      · exact sound_exec hsound hd he

/-- A thread that flushes to its log, or deletes the file, finds it there. -/
theorem exec_not_fault (hsound : Sound tr s) (h : Tidy s) (hok : s.fault = false)
    (htodo : s.todo t = instr :: rest) (he : s.exec path t rest instr = some (o, s')) :
    s'.fault = false := by
  cases instr with
  | titled | openFile | setStream | setFile =>
      cases he
      exact hok
  | deleteFile =>
      cases he
      rw [Bool.eq_false_iff]
      intro hf
      obtain ⟨f, hfile, hdel⟩ := (Option.any_eq_true _ _).mp hf
      exact h.file_exists htodo hfile (of_decide_eq_true hdel)
  | put | unlock =>
      obtain ⟨i, hlog, he⟩ := Option.map_eq_some_iff.mp he
      rw [if_pos (hsound.1 t i hlog)] at he
      cases he
      exact hok
  | lock =>
      obtain ⟨-, he⟩ := Option.ite_none_right_eq_some.mp he
      cases he
      exact hok
  | member op =>
      obtain ⟨i, -, he⟩ := Option.map_eq_some_iff.mp he
      cases he
      exact hok
  | instantiate g =>
      rw [State.exec] at he
      split at he <;> cases he <;> exact hok
  | sync last =>
      rw [State.exec] at he
      split at he
      · cases he
        exact hok
      · split_ifs at he <;> cases he <;> exact hok

end Steps

variable [DecidableEq ι]

theorem tidy_init (path : List Char) : Tidy (threads (ι := ι) path).init := by
  refine ⟨⟨nofun, fun f hf => absurd hf List.not_mem_nil⟩, [], Or.inl ⟨rfl, fun _ => rfl⟩, ?_⟩
  exact .none ⟨nofun, nofun⟩

/-- **When the output can be redirected.** In a history in which `setOutput` and `reset` are not
called concurrently with each other, every log is on an existing stream and no file is deleted twice
at all times if and only if no thread had a log on a file when that was deleted, and no thread
constructed its log while a deleted file was the output. -/
theorem redirection_safe_iff {path : List Char} {tr : History ι} {s : State ι}
    (h : (threads path).Trace tr s) (hserial : (threads path).Guarded Serial tr) :
    (threads path).Always Sound tr ↔ (threads path).Guarded Unused tr := by
  refine h.always_iff_guarded_under Tidy (tidy_init path) ?_ ?_ ?_ hserial
  · exact ⟨nofun, List.nodup_nil⟩
  · exact fun _ _ _ _ htidy hser _ hs => tidy_step htidy hser hs
  · exact fun _ _ _ _ _ _ htidy _ hsound hs => sound_step hsound htidy hs

/-- In these histories no deleted file is accessed, so that the texts are whole. -/
theorem not_fault_of_unused {path : List Char} {tr : History ι} {s : State ι}
    (h : (threads path).Trace tr s) (hserial : (threads path).Guarded Serial tr)
    (hunused : (threads path).Guarded Unused tr) : s.fault = false := by
  suffices hI : s.fault = false ∧ Sound tr s ∧ Tidy s from hI.1
  have hboth : (threads path).Guarded (fun s a => Serial s a ∧ Unused s a) tr :=
    fun pre a b post s he h0 => ⟨hserial pre a b post s he h0, hunused pre a b post s he h0⟩
  refine h.guardedInv (fun tr s => s.fault = false ∧ Sound tr s ∧ Tidy s) ?_ ?_ hboth
  · exact ⟨rfl, ⟨nofun, List.nodup_nil⟩, tidy_init path⟩
  · rintro tr s a o s' ⟨hok, hsound, htidy⟩ ⟨hser, hun⟩ hs
    refine ⟨?_, (sound_step hsound htidy hs).mpr hun, tidy_step htidy hser hs⟩
    cases a with
    | call t f =>
        obtain ⟨-, -, rfl, rfl⟩ := of_call hs
        exact hok
    | step t =>
        obtain ⟨-, instr, rest, htodo, he⟩ := of_step hs
        exact exec_not_fault hsound htidy hok htodo he

/-- Two threads log to a file. The second one destroys its log, or does not, before the first one
resets the output. -/
def redirected (exits : Bool) : List (Action Bool) :=
  let line : Call :=
    .log ⟨1, 7, 0⟩ [] 0 [.disableHeader, .write 'a' ⟨1, 7, 0⟩, .endl ⟨1, 7, 0⟩]
  (.call false (.setOutputFile ['f'] ⟨1, 7, 0⟩ none) :: List.replicate 5 (.step false)) ++
    (.call false line :: List.replicate 10 (.step false)) ++
    (.call true line :: List.replicate 10 (.step true)) ++
    (if exits then .call true .exit :: List.replicate 3 (.step true) else []) ++
    (.call false .reset :: List.replicate 6 (.step false))

theorem redirection_safe_after_exit :
    ∃ tr s, (threads []).run (redirected true) (threads []).init = some (tr, s) ∧
      s.text (.file 0) = ['a', '\n', 'a', '\n'] ∧ s.deleted = [0] ∧
      (threads []).Always Sound tr := by
  have hr : (threads []).run (redirected true) (threads []).init = some (_, _) := rfl
  refine ⟨_, _, hr, by decide, by decide, ?_⟩
  refine (redirection_safe_iff (Machine.Trace.of_run _ hr) ?_).mpr ?_
  · exact Machine.guarded_of_run _ hr (by decide)
  · exact Machine.guarded_of_run _ hr (by decide)

/-- The log of the second thread is on the deleted file. -/
theorem reset_leaves_log :
    ∃ tr s, (threads []).run (redirected false) (threads []).init = some (tr, s) ∧
      ¬ Sound tr s := by
  have hr : (threads []).run (redirected false) (threads []).init = some (_, _) := rfl
  refine ⟨_, _, hr, ?_⟩
  intro h
  exact absurd (h.1 true _ rfl) (by decide)

end Lunchbox.Log.Threads
