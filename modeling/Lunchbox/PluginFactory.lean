import Lunchbox.Lib.Machine

set_option autoImplicit false

/-! # `PluginFactory`

The factory (`pluginFactory.ipp`) and the plugins that a program registers with it (`plugin.h`). An
object has an address, and so have its members. `register_` stores a copy of the given object in a
vector; the elements of this vector are never given out, so that the argument of `deregister` is not
one of them.

`Plugin::operator==` compares the addresses of members, and not what they hold. So no element of the
vector is equal to the argument of `deregister`, which finds nothing and returns false. That is
right only if the argument is not registered (`deregister_undoes_iff`).
-/

namespace Lunchbox.PluginFactory

open StateMachine

/-! ## Plugins -/

/-- What the members of a plugin hold: functions that construct a `T` from a `T::InitDataT`, that
tell whether they can, and that return the description. -/
structure Plugin (D T : Type) where
  constructor : D → T
  handles : D → Bool
  description : String

/-- The address of an object: one of the program, or an element of the vector. -/
inductive Address (P : Type)
  | outside (p : P)
  | element (i : Nat)
  deriving DecidableEq

inductive Member
  | constructor
  | handles
  deriving DecidableEq

structure Object (P D T : Type) where
  address : Address P
  value : Plugin D T

variable {P D T : Type}

/-- The address of a member is that of its object, with an offset. -/
def Object.addressOf (o : Object P D T) (m : Member) : Address P × Member := (o.address, m)

variable [DecidableEq P]

/-- `operator==` -/
def Object.equal (o rhs : Object P D T) : Bool :=
  o.addressOf .constructor = rhs.addressOf .constructor &&
    o.addressOf .handles = rhs.addressOf .handles &&
    o.value.description = rhs.value.description

/-! ## The factory -/

/-- The elements of `_plugins`. -/
structure State (D T : Type) where
  plugins : List (Plugin D T)

namespace State

variable (s : State D T)

def handles (initData : D) : Bool := s.plugins.any fun plugin => plugin.handles initData

/-- `create`, or what it throws. -/
def create (toString : D → String) (initData : D) : Except String T :=
  match s.plugins.find? fun plugin => plugin.handles initData with
  | some plugin => .ok (plugin.constructor initData)
  | none => .error ("No plugin implementation available for " ++ toString initData)

end State

/-- `std::find` over the elements from `i` on. -/
def find (plugin : Object P D T) : Nat → List (Plugin D T) → Option Nat
  | _, [] => none
  | i, value :: plugins =>
      if Object.equal ⟨.element i, value⟩ plugin then some i else find plugin (i + 1) plugins

inductive Action (P : Type)
  | register (p : P)
  | deregister (p : P)
  | deregisterAll

inductive Output
  | done
  | result (b : Bool)

/-- The factory, and a program with its plugin objects. -/
def factory (objects : P → Plugin D T) : Machine (State D T) (Action P) Output where
  init := ⟨[]⟩
  step s
    | .register p => some (.done, ⟨s.plugins ++ [objects p]⟩)
    | .deregister p =>
        match find ⟨.outside p, objects p⟩ 0 s.plugins with
        | none => some (.result false, s)
        | some i => some (.result true, ⟨s.plugins.eraseIdx i⟩)
    | .deregisterAll => some (.done, ⟨[]⟩)

abbrev History (P : Type) := List (Action P × Output)

/-! ## Registrations -/

/-- The registrations after one more call. -/
def note (l : List P) : Action P × Output → List P
  | (.register p, _) => l ++ [p]
  | (.deregister p, _) => l.erase p
  | (.deregisterAll, _) => []

/-- The objects that were registered more often than they were deregistered since the last
`deregisterAll`, each as often as that, in their order. -/
def registered (tr : History P) : List P := tr.foldl note []

/-- `deregister` has told whether there was a registration of its argument, and the factory selects
among the plugins that are registered. -/
structure Undoes (objects : P → Plugin D T) (toString : D → String) (tr : History P)
    (s : State D T) : Prop where
  result : ∀ pre p b, tr = pre ++ [(.deregister p, .result b)] →
    (b = true ↔ 0 < (registered pre).count p)
  plugins : s.plugins = (registered tr).map objects
  handles : ∀ d, s.handles d = (registered tr).any fun p => (objects p).handles d
  create : ∀ d, s.create toString d =
    match (registered tr).find? fun p => (objects p).handles d with
    | some p => .ok ((objects p).constructor d)
    | none => .error ("No plugin implementation available for " ++ toString d)

/-- A plugin that is registered is not deregistered. -/
def NotRegistered (tr : History P) : Action P → Prop
  | .deregister p => p ∉ registered tr
  | _ => True

variable {objects : P → Plugin D T} {toString : D → String} {tr : History P} {s : State D T}

/-- The address of an element is not that of an object of the program. -/
theorem find_outside (p : P) (value : Plugin D T) (i : Nat) (plugins : List (Plugin D T)) :
    find ⟨.outside p, value⟩ i plugins = none := by
  induction plugins generalizing i with
  | nil => rfl
  | cons v plugins ih =>
      have hne : Object.equal ⟨Address.element i, v⟩ ⟨.outside p, value⟩ = false := by
        simp [Object.equal, Object.addressOf]
      rw [find, hne, if_neg (by decide)]
      exact ih (i + 1)

theorem registered_snoc (e : Action P × Output) :
    registered (tr ++ [e]) = note (registered tr) e := by
  rw [registered, List.foldl_append]
  rfl

omit [DecidableEq P] in
/-- What is selected depends on the elements only. -/
theorem create_map (l : List P) (d : D) :
    State.create ⟨l.map objects⟩ toString d =
      match l.find? fun p => (objects p).handles d with
      | some p => .ok ((objects p).constructor d)
      | none => .error ("No plugin implementation available for " ++ toString d) := by
  rw [State.create, List.find?_map]
  cases hfind : l.find? fun p => (objects p).handles d with
  | none => simp only [Function.comp_def, hfind, Option.map_none]
  | some p => simp only [Function.comp_def, hfind, Option.map_some]

theorem Undoes.of_plugins
    (hresult : ∀ pre p b, tr = pre ++ [(.deregister p, .result b)] →
      (b = true ↔ 0 < (registered pre).count p))
    (hplugins : s.plugins = (registered tr).map objects) : Undoes objects toString tr s := by
  obtain ⟨plugins⟩ := s
  subst hplugins
  refine ⟨hresult, rfl, fun d => ?_, fun d => create_map (registered tr) d⟩
  rw [State.handles, List.any_map]
  rfl

/-- A step keeps the property exactly if no registered plugin is deregistered. -/
theorem undoes_step {a : Action P} {o : Output} {s' : State D T}
    (h : Undoes objects toString tr s) (hs : (factory objects).step s a = some (o, s')) :
    Undoes objects toString (tr ++ [(a, o)]) s' ↔ NotRegistered tr a := by
  cases a with
  | register p =>
      cases hs
      refine iff_of_true (.of_plugins ?_ ?_) trivial
      · intro pre q b he
        cases (List.append_inj' he rfl).2
      · rw [registered_snoc, note, List.map_append, h.plugins, List.map_singleton]
  | deregisterAll =>
      cases hs
      refine iff_of_true (.of_plugins ?_ ?_) trivial
      · intro pre q b he
        cases (List.append_inj' he rfl).2
      · rw [registered_snoc]
        rfl
  | deregister p =>
      -- nothing is found: the result is false, and all plugins stay
      simp only [factory, find_outside] at hs
      cases hs
      constructor
      · intro h' hp
        have hiff := h'.result tr p false rfl
        exact absurd (hiff.mpr (List.count_pos_iff.mpr hp)) (by decide)
      · intro hp
        refine .of_plugins ?_ ?_
        · intro pre q b he
          obtain ⟨rfl, hlast⟩ := List.append_inj' he rfl
          cases hlast
          rw [List.count_eq_zero_of_not_mem hp]
          decide
        · rw [registered_snoc, note, List.erase_of_not_mem hp, h.plugins]

/-- **When deregistration undoes registration.** In a run, `deregister` has always told whether its
argument was registered and removed one registration of it, and `handles` and `create` have selected
among the remaining ones in their order, if and only if `deregister` was never called for a plugin
that was registered. -/
theorem deregister_undoes_iff {tr : History P} {s : State D T} (toString : D → String)
    (h : (factory objects).Trace tr s) :
    (factory objects).Always (Undoes objects toString) tr ↔ Respects NotRegistered tr := by
  have h0 : Undoes objects toString [] (factory objects).init := by
    refine .of_plugins ?_ rfl
    intro pre p b he
    simp at he
  refine h.always_iff_respects h0 ?_
  intro tr s a b s' _ hq hs
  exact undoes_step hq hs

/-- Plugins with a constructor that gives their number. -/
def numbered (p : Nat) : Plugin Unit Nat := ⟨fun _ => p, fun _ => true, "plugin"⟩

theorem deregister_undoes_absent :
    (factory numbered).Always (Undoes numbered fun _ => "()")
      [(.register 0, .done), (.deregister 1, .result false), (.deregisterAll, .done),
        (.deregister 0, .result false)] := by
  have h : (factory numbered).Trace [(.register 0, .done), (.deregister 1, .result false),
      (.deregisterAll, .done), (.deregister 0, .result false)] _ :=
    Machine.Trace.of_run [.register 0, .deregister 1, .deregisterAll, .deregister 0] rfl
  refine (deregister_undoes_iff (fun _ => "()") h).mpr (respects_of_checks ?_)
  simp [checks, NotRegistered, registered, note]

/-- `deregister` finds nothing right after `register_`, and the plugin is still selected. -/
theorem registered_not_found :
    ∃ s, (factory numbered).Trace [(.register 0, .done), (.deregister 0, .result false)] s ∧
      s.create (fun _ => "()") () = .ok 0 ∧
      ¬ Undoes numbered (fun _ => "()")
        [(.register 0, .done), (.deregister 0, .result false)] s := by
  refine ⟨_, Machine.Trace.of_run [.register 0, .deregister 0] rfl, rfl, ?_⟩
  intro h
  have hiff := h.result [(.register 0, .done)] 0 false rfl
  exact absurd (hiff.mpr (by decide)) (by decide)

end Lunchbox.PluginFactory
