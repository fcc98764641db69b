import Lunchbox.PluginFactory
import Mathlib.Data.List.Destutter
import Mathlib.Data.List.Sort
import Mathlib.Data.String.Basic

set_option autoImplicit false

/-! # Plugin libraries

`PluginFactory::load` opens the libraries of a directory with `DSO` (`dso.cpp`). A library registers
its plugins in its static initializers (`PluginRegisterer`) or in its `LunchboxPluginRegister`, and
the factory keeps the library open, with a copy of the plugin that was registered last, or closes
it. The functions of a plugin, and with them the destructors of their copies, are code of its
library. They can be called as long as the library has an open handle.

Handles are balanced (`handles_balanced`). But a library that is closed again may have registered
plugins, and `deregisterAll` closes the libraries before it destroys the copies that it keeps of
their plugins; these are the two ways to calls into a library that is no longer there
(`plugin_code_present_iff`).
-/

namespace Lunchbox.PluginFactory.Libraries

open StateMachine

/-! ## Libraries and handles -/

/-- What `dlopen` and `dlsym` find in a library. -/
structure Library (D T : Type) where
  /-- `dlopen` succeeds. -/
  opens : Bool
  /-- the plugins of its static `PluginRegisterer`s -/
  initializers : List (Plugin D T)
  /-- the result of `LunchboxPluginGetVersion`, if there is one -/
  version : Option Int
  /-- what `LunchboxPluginRegister` registers and its result, if there is one -/
  register : Option (List (Plugin D T) × Bool)

/-- A plugin, and the library that its functions are in, if not the program. -/
structure Entry (D T : Type) where
  plugin : Plugin D T
  library : Option String

/-- `_plugins` and `_libraries` of the factory, the number of open handles of each library, and
whether a function was called that is no longer there. -/
structure State (D T : Type) where
  plugins : List (Entry D T)
  libraries : List (String × Entry D T)
  handles : String → Nat
  crashed : Bool

inductive Message
  | error (text : String)
  | info (text : String)

variable {P D T : Type}

/-- The entries for some plugins of a library. -/
def entries (name : String) (plugins : List (Plugin D T)) : List (Entry D T) :=
  plugins.map fun p => ⟨p, some name⟩

namespace State

variable (s : State D T)

/-- The functions of a plugin are there. -/
def Callable (e : Entry D T) : Prop := ∀ name ∈ e.library, 0 < s.handles name

instance : DecidablePred s.Callable := fun e =>
  inferInstanceAs (Decidable (∀ name ∈ e.library, 0 < s.handles name))

/-- Call functions of some plugins. -/
def calls (es : List (Entry D T)) : State D T :=
  if ∀ e ∈ es, s.Callable e then s else { s with crashed := true }

def registers (name : String) (plugins : List (Plugin D T)) : State D T :=
  { s with plugins := s.plugins ++ entries name plugins }

/-- What `dlopen` does with a library that can be opened; the first one runs the initializers. -/
def dlopen (libs : String → Library D T) (name : String) : State D T :=
  { s.registers name (if s.handles name = 0 then (libs name).initializers else []) with
    handles := Function.update s.handles name (s.handles name + 1) }

def dlclose (name : String) : State D T :=
  { s with handles := Function.update s.handles name (s.handles name - 1) }

/-- `DSO::open`, for an object with the handle `dso`. `RTLD_DEFAULT` is a null pointer, so that an
object opened without a name is not open. -/
def openDso (libs : String → Library D T) (dso : Option String) (fileName : String) :
    Bool × Option String × State D T :=
  if dso.isSome then (false, dso, s)
  else if fileName = "" then (true, none, s)
  else if (libs fileName).opens then (true, some fileName, s.dlopen libs fileName)
  else (false, none, s)

/-- `DSO::close` -/
def closeDso : Option String → State D T
  | none => s
  | some name => s.dlclose name

end State

/-! ## `load` -/

/-- `getVersion && (getVersion() == version)` -/
def Library.matchesVersion (l : Library D T) (version : Int) : Bool := l.version = some version

/-- The text of the error if a library is not compatible. -/
def disabled (lib : String) (l : Library D T) (version : Int) : String :=
  "Disable " ++ lib ++ ": " ++
    (if l.version.isSome then "" else "Symbol for LunchboxPluginGetVersion missing ") ++
    (if l.register.isSome then "" else "Symbol for LunchboxPluginRegister missing ") ++
    match l.version with
    | some v =>
        if v = version then ""
        else "Plugin version " ++ toString v ++ " does not match application version " ++
          toString version
    | none => ""

namespace State

variable (s : State D T)

/-- The rest of the loop after `LunchboxPluginRegister` has returned. -/
def keep (name lib : String) (result : Bool) : State D T × List Message :=
  if result then
    match s.plugins.getLast? with
    | some e =>
        ({ s with libraries := s.libraries ++ [(name, e)] }, [.info ("Loaded plugin " ++ lib)])
    | none => ({ s with crashed := true }, [])
  else (s.closeDso (some name), [])

/-- The loop of `load` once the library is open. -/
def examine (libs : String → Library D T) (version : Int) (name lib : String) :
    State D T × List Message :=
  match (libs name).register with
  | none => (s.closeDso (some name), [.error (disabled lib (libs name) version)])
  | some (plugins, result) =>
      if (libs name).matchesVersion version then (s.registers name plugins).keep name lib result
      else (s.closeDso (some name), [.error (disabled lib (libs name) version)])

/-- The loop of `load` for one library of a directory. -/
def load (libs : String → Library D T) (version : Int) (path lib : String) :
    State D T × List Message :=
  match s.openDso libs none (path ++ "/" ++ lib) with
  | (_, none, s) => (s.closeDso none, [])
  | (_, some name, s) => s.examine libs version name lib

/-- Delete the `DSO`s of some elements of `_libraries`. -/
def closeAll (l : List (String × Entry D T)) : State D T :=
  l.foldl (fun s x => s.closeDso (some x.1)) s

def deregisterAll : State D T :=
  -- the plugins are destroyed, then the libraries are closed, then the copies are destroyed
  let cleared := { s.calls s.plugins with plugins := [] }
  { (cleared.closeAll s.libraries).calls (s.libraries.map Prod.snd) with libraries := [] }

/-- The factory without its libraries. -/
def factory : PluginFactory.State D T := ⟨s.plugins.map Entry.plugin⟩

def getDescriptions : String :=
  s.plugins.foldl
    (fun descriptions e =>
      descriptions ++ (if descriptions = "" then "" else "\n\n") ++ e.plugin.description) ""

end State

/-- The plugins whose `handles` is called, up to the first one that does. -/
def consulted (initData : D) : List (Entry D T) → List (Entry D T)
  | [] => []
  | e :: es => if e.plugin.handles initData then [e] else e :: consulted initData es

inductive Action (P D : Type)
  | register (p : P)
  | deregister (p : P)
  | deregisterAll
  | handles (initData : D)
  | create (initData : D)
  | getDescriptions
  /-- the loop of `load`, for one library -/
  | load (version : Int) (path lib : String)

inductive Output (T : Type)
  | done
  | result (b : Bool)
  | created (t : Except String T)
  | descriptions (text : String)
  | loaded (messages : List Message)

/-- What a program finds: its plugin objects, the libraries by their names, the texts of the data
and the directories. -/
structure Program (P D T : Type) where
  objects : P → Plugin D T
  libs : String → Library D T
  toString : D → String
  /-- the entries that `readdir` returns, if `opendir` succeeds -/
  directory : String → Option (List String)
  /-- `boost::regex_match( candidate, boost::regex( pattern ))` -/
  regexMatch : (candidate pattern : String) → Bool

/-- `searchDirectory` (`file.cpp`): the entries of a directory that match. -/
def Program.searchDirectory (prog : Program P D T) (directory pattern : String) : List String :=
  match prog.directory directory with
  | none => []
  | some candidates => candidates.filter fun candidate => prog.regexMatch candidate pattern

variable [DecidableEq P]

/-- The factory in a program; there is no next step after a crash. -/
def loader (prog : Program P D T) : Machine (State D T) (Action P D) (Output T) where
  init := ⟨[], [], fun _ => 0, false⟩
  step s a :=
    if s.crashed then none
    else match a with
      | .register p => some (.done, { s with plugins := s.plugins ++ [⟨prog.objects p, none⟩] })
      | .deregister p =>
          match find ⟨.outside p, prog.objects p⟩ 0 s.factory.plugins with
          | none => some (.result false, s)
          | some i => some (.result true, { s with plugins := s.plugins.eraseIdx i })
      | .deregisterAll => some (.done, s.deregisterAll)
      | .handles d => some (.result (s.factory.handles d), s.calls (consulted d s.plugins))
      | .create d =>
          some (.created (s.factory.create prog.toString d), s.calls (consulted d s.plugins))
      | .getDescriptions => some (.descriptions s.getDescriptions, s.calls s.plugins)
      | .load version path lib =>
          some (.loaded (s.load prog.libs version path lib).2,
            (s.load prog.libs version path lib).1)

abbrev History (P D T : Type) := List (Action P D × Output T)

/-! ## The property and the condition -/

/-- Whatever the factory may call is there: nothing was called that was not, and the functions of
the plugins and of the copies kept with the libraries can be called. -/
structure Present (_tr : History P D T) (s : State D T) : Prop where
  running : s.crashed = false
  plugins : ∀ e ∈ s.plugins, s.Callable e
  copies : ∀ x ∈ s.libraries, s.Callable x.2

/-- The plugins that `LunchboxPluginRegister` registers, if it is called. -/
def Library.registered (l : Library D T) (version : Int) : List (Plugin D T) :=
  match l.register with
  | some (plugins, _) => if l.matchesVersion version then plugins else []
  | none => []

/-- The library stays open. -/
def Library.kept (l : Library D T) (version : Int) : Bool :=
  match l.register with
  | some (_, result) => l.matchesVersion version && result
  | none => false

/-- The plugins that a library registers when it is loaded. -/
def State.fresh (s : State D T) (libs : String → Library D T) (version : Int) (name : String) :
    List (Plugin D T) :=
  (if s.handles name = 0 then (libs name).initializers else []) ++ (libs name).registered version

/-- A library that is not kept, and not open otherwise, registers nothing; one that is kept has a
plugin to be kept with. -/
def State.LoadsCleanly (s : State D T) (libs : String → Library D T) (version : Int)
    (name : String) : Prop :=
  (libs name).opens = true →
    if (libs name).kept version then
      s.plugins.isEmpty = false ∨ (s.fresh libs version name).isEmpty = false
    else s.handles name = 0 → (s.fresh libs version name).isEmpty = true

instance (s : State D T) (libs : String → Library D T) (version : Int) (name : String) :
    Decidable (s.LoadsCleanly libs version name) :=
  inferInstanceAs (Decidable (_ → ite _ _ _))

/-- Libraries load cleanly, and there are no copies of their plugins when they are closed. -/
def Orderly (prog : Program P D T) (s : State D T) : Action P D → Prop
  | .load version path lib => s.LoadsCleanly prog.libs version (path ++ "/" ++ lib)
  | .deregisterAll => ∀ x ∈ s.libraries, x.2.library = none
  | _ => True

instance (prog : Program P D T) (s : State D T) : DecidablePred (Orderly prog s)
  | .load version path lib =>
      inferInstanceAs (Decidable (s.LoadsCleanly prog.libs version (path ++ "/" ++ lib)))
  | .deregisterAll => inferInstanceAs (Decidable (∀ x ∈ s.libraries, x.2.library = none))
  | .register _ | .deregister _ | .handles _ | .create _ | .getDescriptions => isTrue trivial

/-- Every handle belongs to an element of `_libraries`. -/
def Balanced (s : State D T) : Prop :=
  ∀ name, s.handles name = (s.libraries.map Prod.fst).count name

/-! ## What `load` does -/

section Load

omit [DecidableEq P]

variable {prog : Program P D T} {libs : String → Library D T} {version : Int}
  {name path lib : String}
  {s s' : State D T}

theorem load_closed (h : (libs (path ++ "/" ++ lib)).opens = false) :
    (s.load libs version path lib).1 = s := by
  simp [State.load, State.openDso, h, State.closeDso]

theorem load_opened (h : (libs (path ++ "/" ++ lib)).opens = true) :
    s.load libs version path lib = (s.dlopen libs (path ++ "/" ++ lib)).examine libs version
      (path ++ "/" ++ lib) lib := by
  simp [State.load, State.openDso, h]

theorem registers_nil : s.registers name [] = s := by
  rw [State.registers, entries, List.map_nil, List.append_nil]

/-- The library is kept or closed, after it has registered its plugins. -/
theorem examine_eq : (s.examine libs version name lib).1 =
    if (libs name).kept version then
      ((s.registers name ((libs name).registered version)).keep name lib true).1
    else (s.registers name ((libs name).registered version)).dlclose name := by
  rw [State.examine, Library.kept, Library.registered]
  cases (libs name).register with
  | none => simp [registers_nil, State.closeDso]
  | some r =>
      obtain ⟨plugins, result⟩ := r
      cases (libs name).matchesVersion version with
      | false => simp [registers_nil, State.closeDso]
      | true => cases result <;> simp [State.keep, State.closeDso]

/-- The plugins of the factory after a library has been loaded. -/
def State.more (s : State D T) (libs : String → Library D T) (version : Int) (name : String) :
    List (Entry D T) :=
  s.plugins ++ entries name (s.fresh libs version name)

/-- **A library that is kept.** -/
theorem load_kept (h : (libs (path ++ "/" ++ lib)).opens = true)
    (hkept : (libs (path ++ "/" ++ lib)).kept version = true) :
    (s.load libs version path lib).1 =
      match (s.more libs version (path ++ "/" ++ lib)).getLast? with
      | some e => { s with
          plugins := s.more libs version (path ++ "/" ++ lib)
          libraries := s.libraries ++ [(path ++ "/" ++ lib, e)]
          handles := Function.update s.handles (path ++ "/" ++ lib)
            (s.handles (path ++ "/" ++ lib) + 1) }
      | none => { s with
          plugins := s.more libs version (path ++ "/" ++ lib)
          handles := Function.update s.handles (path ++ "/" ++ lib)
            (s.handles (path ++ "/" ++ lib) + 1)
          crashed := true } := by
  rw [load_opened h, examine_eq, if_pos hkept]
  generalize path ++ "/" ++ lib = name
  have hmore : ((s.dlopen libs name).registers name ((libs name).registered version)).plugins
      = s.more libs version name := by
    simp [State.more, State.fresh, State.registers, State.dlopen, entries]
  rw [State.keep, if_pos rfl, hmore]
  cases (s.more libs version name).getLast? with
  | none => simp [State.registers, State.dlopen, ← hmore]
  | some e => simp [State.registers, State.dlopen, ← hmore]

/-- **A library that is closed again** leaves its plugins behind, and all handles as they were. -/
theorem load_rejected (h : (libs (path ++ "/" ++ lib)).opens = true)
    (hkept : (libs (path ++ "/" ++ lib)).kept version = false) :
    (s.load libs version path lib).1
      = { s with plugins := s.more libs version (path ++ "/" ++ lib) } := by
  rw [load_opened h, examine_eq, hkept, if_neg (by decide)]
  generalize path ++ "/" ++ lib = name
  simp [State.more, State.fresh, State.registers, State.dlopen, State.dlclose, entries]

end Load

/-! ## Handles -/

section Handles

variable {prog : Program P D T} {s s' : State D T} {a : Action P D} {o : Output T}

theorem calls_handles (s : State D T) (es : List (Entry D T)) :
    (s.calls es).handles = s.handles := by
  rw [State.calls]
  split_ifs <;> rfl

theorem calls_libraries (s : State D T) (es : List (Entry D T)) :
    (s.calls es).libraries = s.libraries := by
  rw [State.calls]
  split_ifs <;> rfl

theorem calls_plugins (s : State D T) (es : List (Entry D T)) :
    (s.calls es).plugins = s.plugins := by
  rw [State.calls]
  split_ifs <;> rfl

theorem calls_crashed (s : State D T) (es : List (Entry D T)) :
    (s.calls es).crashed = false ↔ s.crashed = false ∧ ∀ e ∈ es, s.Callable e := by
  rw [State.calls]
  split_ifs with h
  · exact (and_iff_left h).symm
  · exact iff_of_false nofun fun hs => h hs.2

/-- The libraries are closed one after the other. -/
theorem closeAll_handles (l : List (String × Entry D T)) (s : State D T) (name : String) :
    (s.closeAll l).handles name = s.handles name - (l.map Prod.fst).count name := by
  induction l generalizing s with
  | nil => rfl
  | cons x l ih =>
      rw [State.closeAll, List.foldl_cons, ← State.closeAll, ih, List.map_cons, List.count_cons,
        State.closeDso, State.dlclose]
      by_cases hx : x.1 = name
      · subst hx
        simp only [Function.update_self, beq_self_eq_true, if_true]
        omega
      · simp [hx, Function.update_of_ne (Ne.symm hx)]

theorem closeAll_rest (l : List (String × Entry D T)) (s : State D T) :
    (s.closeAll l).crashed = s.crashed ∧ (s.closeAll l).plugins = s.plugins := by
  induction l generalizing s with
  | nil => exact ⟨rfl, rfl⟩
  | cons x l ih => exact ih (s.dlclose x.1)

theorem balanced_load {libs : String → Library D T} {version : Int} {path lib : String}
    (h : Balanced s) (hrun : (s.load libs version path lib).1.crashed = false) :
    Balanced (s.load libs version path lib).1 := by
  cases hopen : (libs (path ++ "/" ++ lib)).opens with
  | false => rwa [load_closed hopen]
  | true =>
      cases hkept : (libs (path ++ "/" ++ lib)).kept version with
      | false =>
          rw [load_rejected hopen hkept]
          exact h
      | true =>
          rw [load_kept hopen hkept] at hrun ⊢
          split at hrun
          · rename_i e he
            intro name
            simp only [List.map_append, List.map_cons, List.map_nil, List.count_append,
              List.count_singleton]
            by_cases hn : path ++ "/" ++ lib = name
            · rw [hn, Function.update_self, h name, if_pos (beq_self_eq_true _)]
            · rw [Function.update_of_ne (Ne.symm hn), h name, if_neg (by simpa using hn)]
              rfl
          · cases hrun

/-- A step keeps the balance, unless the program crashes. -/
theorem balanced_step (h : Balanced s) (hs : (loader prog).step s a = some (o, s'))
    (hrun : s'.crashed = false) : Balanced s' := by
  obtain ⟨-, hs⟩ := Option.ite_none_left_eq_some.mp hs
  cases a with
  | register p =>
      cases hs
      exact h
  | deregister p =>
      simp only [State.factory, find_outside] at hs
      cases hs
      exact h
  | handles d =>
      cases hs
      rwa [Balanced, calls_handles, calls_libraries]
  | create d =>
      cases hs
      rwa [Balanced, calls_handles, calls_libraries]
  | getDescriptions =>
      cases hs
      rwa [Balanced, calls_handles, calls_libraries]
  | load version path lib =>
      cases hs
      exact balanced_load h hrun
  | deregisterAll =>
      cases hs
      intro name
      refine (congrFun (calls_handles _ _) name).trans ?_
      rw [closeAll_handles, calls_handles, h name]
      exact Nat.sub_self _

/-- **No library stays open without being kept, and none is closed twice.** As long as the program
has not crashed, the number of open handles of every library is the number of its elements in
`_libraries`. -/
theorem handles_balanced {tr : History P D T} (h : (loader prog).Trace tr s)
    (hrun : s.crashed = false) : Balanced s := by
  induction h with
  | nil => exact fun _ => rfl
  | snoc _ hs ih =>
      refine balanced_step (ih ?_) hs hrun
      obtain ⟨hrun, -⟩ := Option.ite_none_left_eq_some.mp hs
      exact Bool.eq_false_iff.mpr hrun

end Handles

/-! ## Code that is there -/

section Present

variable {prog : Program P D T} {tr tr' : History P D T} {s s' : State D T} {a : Action P D}
  {o : Output T}

omit [DecidableEq P] in
theorem consulted_subset (d : D) (es : List (Entry D T)) : ∀ e ∈ consulted d es, e ∈ es := by
  induction es with
  | nil => exact fun e he => he
  | cons e es ih =>
      rw [consulted]
      split_ifs
      · intro x hx
        rw [List.mem_singleton.mp hx]
        exact List.mem_cons_self
      · intro x hx
        rcases List.mem_cons.mp hx with rfl | hx
        · exact List.mem_cons_self
        · exact List.mem_cons_of_mem _ (ih x hx)

omit [DecidableEq P] in
/-- The plugins can be called. -/
theorem Present.calls (h : Present tr s) {es : List (Entry D T)} (hes : ∀ e ∈ es, e ∈ s.plugins) :
    s.calls es = s :=
  if_pos fun e he => h.plugins e (hes e he)

omit [DecidableEq P] in
theorem mem_more {libs : String → Library D T} {version : Int} {name : String} {e : Entry D T} :
    e ∈ s.more libs version name ↔
      e ∈ s.plugins ∨ ∃ p ∈ s.fresh libs version name, (⟨p, some name⟩ : Entry D T) = e := by
  rw [State.more, List.mem_append, entries, List.mem_map]

omit [DecidableEq P] in
/-- More handles do no harm. -/
theorem Callable.update {e : Entry D T} {name : String} (h : s.Callable e)
    (hs : s'.handles = Function.update s.handles name (s.handles name + 1)) : s'.Callable e := by
  intro n hn
  rw [hs, Function.update_apply]
  split_ifs
  · exact Nat.succ_pos _
  · exact h n hn

omit [DecidableEq P] in
theorem present_kept {libs : String → Library D T} {version : Int} {path lib : String}
    (h : Present tr s) (hopen : (libs (path ++ "/" ++ lib)).opens = true)
    (hkept : (libs (path ++ "/" ++ lib)).kept version = true) :
    Present tr' (s.load libs version path lib).1 ↔
      s.plugins.isEmpty = false ∨ (s.fresh libs version (path ++ "/" ++ lib)).isEmpty = false := by
  have hmore : (s.more libs version (path ++ "/" ++ lib)).getLast? = none ↔
      ¬ (s.plugins.isEmpty = false ∨
        (s.fresh libs version (path ++ "/" ++ lib)).isEmpty = false) := by
    simp [State.more, entries, and_comm]
  rw [load_kept hopen hkept]
  generalize path ++ "/" ++ lib = name at *
  split
  · rename_i e he
    refine iff_of_true ?_ (by_contra fun hno => by simp [hmore.mpr hno] at he)
    have hall : ∀ x ∈ s.more libs version name, ∀ s' : State D T,
        s'.handles = Function.update s.handles name (s.handles name + 1) → s'.Callable x := by
      intro x hx s' hs'
      rcases mem_more.mp hx with hx | ⟨p, -, rfl⟩
      · exact Callable.update (h.plugins x hx) hs'
      · rintro n ⟨⟩
        rw [hs', Function.update_self]
        exact Nat.succ_pos _
    refine ⟨h.running, fun x hx => hall x hx _ rfl, ?_⟩
    intro x hx
    rcases List.mem_append.mp hx with hx | hx
    · exact Callable.update (h.copies x hx) rfl
    · rw [List.mem_singleton.mp hx]
      exact hall e (List.mem_of_getLast? he) _ rfl
  · rename_i he
    exact iff_of_false (fun hp => absurd hp.running (by simp)) (hmore.mp he)

omit [DecidableEq P] in
theorem present_rejected {libs : String → Library D T} {version : Int} {path lib : String}
    (h : Present tr s) (hopen : (libs (path ++ "/" ++ lib)).opens = true)
    (hkept : (libs (path ++ "/" ++ lib)).kept version = false) :
    Present tr' (s.load libs version path lib).1 ↔
      (s.handles (path ++ "/" ++ lib) = 0 →
        (s.fresh libs version (path ++ "/" ++ lib)).isEmpty = true) := by
  rw [load_rejected hopen hkept]
  generalize path ++ "/" ++ lib = name at *
  constructor
  · intro hp hzero
    rw [List.isEmpty_iff, List.eq_nil_iff_forall_not_mem]
    intro p hmem
    -- a plugin without an open handle of its library
    have hcall := hp.plugins ⟨p, some name⟩ (mem_more.mpr (Or.inr ⟨p, hmem, rfl⟩)) name rfl
    exact absurd hzero (Nat.pos_iff_ne_zero.mp hcall)
  · intro hclean
    refine ⟨h.running, ?_, h.copies⟩
    intro e he
    rcases mem_more.mp he with he | ⟨p, hp, rfl⟩
    · exact h.plugins e he
    · rintro n ⟨⟩
      apply Nat.pos_of_ne_zero
      intro hzero
      rw [List.isEmpty_iff.mp (hclean hzero)] at hp
      exact absurd hp List.not_mem_nil

omit [DecidableEq P] in
theorem present_load {libs : String → Library D T} {version : Int} {path lib : String}
    (h : Present tr s) :
    Present tr' (s.load libs version path lib).1 ↔
      s.LoadsCleanly libs version (path ++ "/" ++ lib) := by
  rw [State.LoadsCleanly]
  cases hopen : (libs (path ++ "/" ++ lib)).opens with
  | false =>
      rw [load_closed hopen]
      exact iff_of_true ⟨h.running, h.plugins, h.copies⟩ nofun
  | true =>
      rw [imp_iff_right rfl]
      cases hkept : (libs (path ++ "/" ++ lib)).kept version with
      | true =>
          rw [if_pos rfl]
          exact present_kept h hopen hkept
      | false =>
          rw [if_neg (by decide)]
          exact present_rejected h hopen hkept

omit [DecidableEq P] in
/-- The copies are destroyed when no library is open. -/
theorem present_deregisterAll (h : Present tr s) (hbalanced : Balanced s) :
    Present tr' s.deregisterAll ↔ ∀ x ∈ s.libraries, x.2.library = none := by
  have hzero : ∀ name,
      (State.closeAll { s with plugins := [] } s.libraries).handles name = 0 := by
    intro name
    rw [closeAll_handles, hbalanced name]
    exact Nat.sub_self _
  have hcrashed : s.deregisterAll.crashed = false ↔ ∀ x ∈ s.libraries, x.2.library = none := by
    rw [State.deregisterAll, h.calls fun _ he => he]
    refine (calls_crashed _ _).trans ?_
    rw [(closeAll_rest _ _).1, and_iff_right h.running, List.forall_mem_map]
    refine forall₂_congr fun x _ => ?_
    rw [State.Callable, Option.eq_none_iff_forall_not_mem]
    refine forall₂_congr fun name _ => ?_
    rw [hzero name]
    exact iff_false_intro (Nat.lt_irrefl 0)
  rw [← hcrashed]
  constructor
  · exact fun hp => hp.running
  · intro hrun
    refine ⟨hrun, ?_, fun x hx => absurd hx List.not_mem_nil⟩
    intro e he
    have hnil : s.deregisterAll.plugins = [] := by
      refine (calls_plugins _ _).trans ?_
      rw [(closeAll_rest _ _).2]
    rw [hnil] at he
    exact absurd he List.not_mem_nil

theorem present_step (h : Present tr s) (hbalanced : Balanced s)
    (hs : (loader prog).step s a = some (o, s')) : Present tr' s' ↔ Orderly prog s a := by
  have hsame : Present tr' s := ⟨h.running, h.plugins, h.copies⟩
  obtain ⟨-, hs⟩ := Option.ite_none_left_eq_some.mp hs
  cases a with
  | register p =>
      cases hs
      refine iff_of_true ⟨h.running, ?_, h.copies⟩ trivial
      intro e he
      rcases List.mem_append.mp he with he | he
      · exact h.plugins e he
      · rw [List.mem_singleton.mp he]
        exact nofun
  | deregister p =>
      simp only [State.factory, find_outside] at hs
      cases hs
      exact iff_of_true hsame trivial
  | handles d =>
      cases hs
      rw [h.calls (consulted_subset d _)]
      exact iff_of_true hsame trivial
  | create d =>
      cases hs
      rw [h.calls (consulted_subset d _)]
      exact iff_of_true hsame trivial
  | getDescriptions =>
      cases hs
      rw [h.calls fun _ he => he]
      exact iff_of_true hsame trivial
  | load version path lib =>
      cases hs
      exact present_load h
  | deregisterAll =>
      cases hs
      exact present_deregisterAll h hbalanced

/-- **When the code of the plugins is there.** In a run, nothing was called in a library that is
closed, and the functions of all plugins and of the copies kept with the libraries could be called
at all times, if and only if every library that was closed again had registered nothing (or was
still open otherwise), the kept ones had a plugin to be kept with, and `deregisterAll` was called
only while no plugin of a library was kept with a library. -/
theorem plugin_code_present_iff (h : (loader prog).Trace tr s) :
    (loader prog).Always Present tr ↔ (loader prog).Guarded (Orderly prog) tr := by
  refine h.always_iff_guarded_of_inv (fun s => s.crashed = false → Balanced s) (fun _ _ => rfl)
    ⟨rfl, nofun, nofun⟩ ?_ ?_
  · intro s a o s' hbalanced _ hs hrun
    refine balanced_step (hbalanced ?_) hs hrun
    exact Bool.eq_false_iff.mpr (Option.ite_none_left_eq_some.mp hs).1
  · intro tr s a o s' _ hbalanced hpresent hs
    exact present_step hpresent (hbalanced hpresent.running) hs

end Present

/-- A library `libp.so` in the directory `d` that registers one plugin; patterns are names. -/
def sample : Program Unit Unit Nat where
  objects _ := ⟨fun _ => 0, fun _ => false, "program"⟩
  libs name :=
    ⟨name = "d/libp.so", [], some 1, some ([⟨fun _ => 1, fun _ => true, "library"⟩], true)⟩
  toString _ := "()"
  directory path := if path = "d" then some [".", "..", "libp.so", "libq.so"] else none
  regexMatch candidate pattern := candidate = pattern

theorem plugin_code_present_loaded :
    ∃ tr s, (loader sample).run [.register (), .load 1 "d" "libp.so", .load 2 "d" "libp.so",
        .create (), .getDescriptions] (loader sample).init = some (tr, s) ∧
      s.handles "d/libp.so" = 1 ∧ (loader sample).Always Present tr := by
  have hr : (loader sample).run [.register (), .load 1 "d" "libp.so", .load 2 "d" "libp.so",
      .create (), .getDescriptions] (loader sample).init = some (_, _) := rfl
  refine ⟨_, _, hr, by decide, (plugin_code_present_iff (Machine.Trace.of_run _ hr)).mpr ?_⟩
  exact Machine.guarded_of_run _ hr (by decide)

/-- `deregisterAll` destroys the copy of a plugin after its library was closed. -/
theorem deregisterAll_crashes :
    ∃ tr s, (loader sample).run [.load 1 "d" "libp.so", .deregisterAll] (loader sample).init
        = some (tr, s) ∧ s.crashed = true := by
  have hr : (loader sample).run [.load 1 "d" "libp.so", .deregisterAll] (loader sample).init
      = some (_, _) := rfl
  exact ⟨_, _, hr, by decide⟩

theorem handles_balanced_loaded :
    ∃ tr s, (loader sample).run [.load 1 "d" "libp.so", .load 1 "d" "libp.so",
        .load 2 "d" "libp.so"] (loader sample).init = some (tr, s) ∧
      s.handles "d/libp.so" = 2 ∧ Balanced s := by
  have hr : (loader sample).run [.load 1 "d" "libp.so", .load 1 "d" "libp.so",
      .load 2 "d" "libp.so"] (loader sample).init = some (_, _) := rfl
  exact ⟨_, _, hr, by decide, handles_balanced (Machine.Trace.of_run _ hr) (by decide)⟩

/-! ## The libraries of directories -/

section Directories

variable {α : Type} [LinearOrder α]

/-- `usort` (`algorithm.h`): sort, and remove what is equal to the element before. -/
def usort (l : List α) : List α := (l.insertionSort (· ≤ ·)).destutter (· ≠ ·)

theorem mem_destutter_ne (a : α) (l : List α) (x : α) :
    x ∈ l.destutter' (· ≠ ·) a ↔ x = a ∨ x ∈ l := by
  induction l generalizing a with
  | nil => simp
  | cons b l ih =>
      by_cases hab : a = b
      · subst hab
        rw [List.destutter'_cons_neg _ (by simp), ih]
        simp
      · rw [List.destutter'_cons_pos _ hab, List.mem_cons, ih, List.mem_cons]

theorem mem_usort (l : List α) (x : α) : x ∈ usort l ↔ x ∈ l := by
  rw [usort, ← List.mem_insertionSort (· ≤ ·) (l := l)]
  cases l.insertionSort (· ≤ ·) with
  | nil => rfl
  | cons a l => rw [List.destutter_cons', mem_destutter_ne, List.mem_cons]

/-- Sorted, without repetitions. -/
theorem sortedLT_usort (l : List α) : (usort l).SortedLT := by
  rw [List.sortedLT_iff_isChain]
  have hsorted : (usort l).Pairwise (· ≤ ·) :=
    (List.sortedLE_insertionSort (l := l)).pairwise.sublist (List.destutter_sublist _ _)
  have hchain : (usort l).IsChain (· ≠ ·) := List.isChain_destutter _ _
  have hle := hsorted.isChain
  rw [List.isChain_iff_forall_rel_of_append_cons_cons] at hchain hle ⊢
  intro a b l₁ l₂ he
  exact lt_of_le_of_ne (hle he) (hchain he)

end Directories

variable (prog : Program P D T)

/-- `load` for a directory -/
def loadPath (version : Int) (pattern path : String) : List (Action P D) :=
  (prog.searchDirectory path ("lib" ++ pattern ++ ".so")).map (.load version path)

/-- `load` for some directories -/
def loadPaths (version : Int) (pattern : String) (paths : List String) : List (Action P D) :=
  (usort paths).flatMap (loadPath prog version pattern)

omit [DecidableEq P] in
/-- **`load` depends on the set of directories only**, and examines each library once. -/
theorem loadPaths_examines_once (version : Int) (pattern : String) (paths : List String)
    (hnodup : ∀ path, (prog.searchDirectory path ("lib" ++ pattern ++ ".so")).Nodup) :
    (loadPaths prog version pattern paths).Nodup ∧
      (∀ path lib, Action.load version path lib ∈ loadPaths prog version pattern paths ↔
        path ∈ paths ∧ lib ∈ prog.searchDirectory path ("lib" ++ pattern ++ ".so")) ∧
      ∀ paths', (∀ path, path ∈ paths' ↔ path ∈ paths) →
        loadPaths prog version pattern paths' = loadPaths prog version pattern paths := by
  refine ⟨?_, ?_, ?_⟩
  · refine List.nodup_flatMap.mpr ⟨?_, ?_⟩
    · intro path _
      exact (hnodup path).map fun lib lib' he => by cases he; rfl
    · refine (sortedLT_usort paths).pairwise.imp ?_
      intro path path' hlt a ha ha'
      obtain ⟨lib, -, rfl⟩ := List.mem_map.mp ha
      obtain ⟨lib', -, he⟩ := List.mem_map.mp ha'
      cases he
      exact absurd hlt (lt_irrefl _)
  · intro path lib
    rw [loadPaths, List.mem_flatMap]
    constructor
    · rintro ⟨path', hpath, hlib⟩
      obtain ⟨lib', hlib, he⟩ := List.mem_map.mp hlib
      cases he
      exact ⟨(mem_usort paths path).mp hpath, hlib⟩
    · rintro ⟨hpath, hlib⟩
      exact ⟨path, (mem_usort paths path).mpr hpath, List.mem_map.mpr ⟨lib, hlib, rfl⟩⟩
  · intro paths' hsame
    have hsort : usort paths' = usort paths := by
      refine (sortedLT_usort paths').eq_of_mem_iff (sortedLT_usort paths) ?_
      intro path
      rw [mem_usort, mem_usort, hsame]
    rw [loadPaths, loadPaths, hsort]

theorem sample_examines_once :
    loadPaths sample 1 "p" ["d", "c", "d"] = [.load 1 "d" "libp.so"] ∧
      (loadPaths sample 1 "p" ["d", "c", "d"]).Nodup := by
  refine ⟨rfl, (loadPaths_examines_once sample 1 "p" ["d", "c", "d"] ?_).1⟩
  intro path
  simp only [Program.searchDirectory, sample]
  split
  · exact List.nodup_nil
  · rename_i candidates hdir
    cases (Option.ite_none_right_eq_some.mp hdir).2
    exact List.Nodup.filter _ (by decide)

end Lunchbox.PluginFactory.Libraries
