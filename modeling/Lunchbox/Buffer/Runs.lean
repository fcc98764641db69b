import Mathlib.Tactic
import Lunchbox.Buffer.Refinement

set_option autoImplicit false

/-! # `Buffer` refines a list with spare capacity

A program over any number of buffers, and the same program over lists with spare capacity. As long
as the calls meet their preconditions the buffers answer all of them, as the lists do, and have the
contents of the lists. What an operation does to the contents (`Spec`) is read off the lists.
-/

namespace Lunchbox

open Storage StateMachine Function

variable {T ι : Type}

namespace SpareList

open Buffer (Op Output)

/-- A program over lists with spare capacity. -/
def lists [DecidableEq ι] : Machine (ι → SpareList T) (Op ι T) Output where
  init _ := empty
  step t
    | .resize k n => some (.done, update t k ((t k).resize n))
    | .grow k n => some (.done, update t k ((t k).grow n))
    | .reserve k n => some (.done, update t k ((t k).reserve n))
    | .reset k n => some (.done, update t k ((t k).reset n))
    | .append k data => some (.done, update t k ((t k).append data))
    | .replace k data => some (.done, update t k ((t k).replace data))
    | .pack k => some (.done, update t k (t k).pack)
    | .setSize k n => some (.result ((t k).setSize n).1, update t k ((t k).setSize n).2)
    | .clear k => some (.done, update t k empty)
    | .swap k m => some (.done, t ∘ Equiv.swap k m)
    | .copy k m => some (.done, if k = m then t else update t k ((t k).replace (t m).elements))
    | .move k m => some (.done, t ∘ Equiv.swap k m)
    | .copyConstruct k m =>
        if k = m then none else some (.done, update t k (empty.replace (t m).elements))
    | .moveConstruct k m =>
        if k = m then none else some (.done, update t k empty ∘ Equiv.swap k m)
    | .put k i x =>
        if i < (t k).size then some (.done, update t k ((t k).write i [some x])) else none

end SpareList

namespace Buffer

open SpareList (lists)

/-! ## Contents -/

/-- What is behind a buffer: the allocated cells, and its size and capacity. -/
structure Contents (T : Type) where
  cells : List (Option T)
  size : Nat
  maxSize : Nat

def Contents.elements (c : Contents T) : List (Option T) := c.cells.take c.size

/-- The elements below the smaller of the two sizes are the same. -/
def Contents.Keeps (c c' : Contents T) : Prop := c'.elements.take c.size = c.elements.take c'.size

def State.contents (s : State ι T) (k : ι) : Contents T :=
  ⟨(s.memory.cells (s.buffers k).data).getD [], (s.buffers k).size, (s.buffers k).maxSize⟩

/-- The buffers that an operation may change. -/
def Op.Changes : Op ι T → ι → Prop
  | .resize k _, j | .grow k _, j | .reserve k _, j | .reset k _, j | .append k _, j
  | .replace k _, j | .pack k, j | .setSize k _, j | .clear k, j | .copy k _, j
  | .copyConstruct k _, j | .put k _ _, j => j = k
  | .swap k m, j | .move k m, j | .moveConstruct k m, j => j = k ∨ j = m

/-- What an operation does to the buffers it is called for. -/
def Effect (c c' : ι → Contents T) : Op ι T → Output → Prop
  | .resize k n, _ => (c' k).size = n ∧ (c k).Keeps (c' k)
  | .grow k n, _ => (c' k).size = max (c k).size n ∧ (c k).Keeps (c' k)
  | .reserve k n, _ =>
      (c' k).size = (c k).size ∧ (c' k).maxSize = max (c k).maxSize n ∧ (c k).Keeps (c' k)
  | .reset k n, _ => (c' k).size = n
  | .append k data, _ => (c' k).elements = (c k).elements ++ data
  | .replace k data, _ => (c' k).elements = data
  | .pack k, _ =>
      (c' k).size = (c k).size ∧ (c' k).maxSize = (c k).size ∧ (c k).Keeps (c' k)
  | .setSize k n, out =>
      if (c k).maxSize < n then out = .result false ∧ c' = c
      else out = .result true ∧ c' k = { c k with size := n }
  | .clear k, _ => c' k = ⟨[], 0, 0⟩
  | .swap k m, _ => c' k = c m ∧ c' m = c k
  | .copy k m, _ => (c' k).elements = (c m).elements
  | .move k m, _ => c' k = c m ∧ c' m = c k
  | .copyConstruct k m, _ => (c' k).elements = (c m).elements
  | .moveConstruct k m, _ => c' k = c m ∧ c' m = ⟨[], 0, 0⟩
  | .put k i x, _ => (c' k).elements = (c k).elements.set i (some x)

/-- What an operation does to all buffers. -/
def Spec (c c' : ι → Contents T) (op : Op ι T) (out : Output) : Prop :=
  Effect c c' op out ∧ ∀ j, ¬ op.Changes j → c' j = c j

/-! ## Lists -/

variable {P : Params}

/-- The contents of a buffer that represents the list. -/
def contentsOf (l : SpareList T) : Contents T := ⟨l.cells, l.size, l.cells.length⟩

@[simp] theorem elements_contentsOf (l : SpareList T) : (contentsOf l).elements = l.elements := rfl

@[simp] theorem contentsOf_empty : contentsOf (SpareList.empty : SpareList T) = ⟨[], 0, 0⟩ := rfl

theorem keeps_resize (l : SpareList T) (n : Nat) :
    (contentsOf l).Keeps (contentsOf (l.resize n)) := by
  show (l.resize n).elements.take l.size = l.elements.take (l.resize n).size
  rw [l.elements_resize, l.size_resize]

theorem keeps_grow (l : SpareList T) (n : Nat) : (contentsOf l).Keeps (contentsOf (l.grow n)) := by
  show (l.grow n).elements.take l.size = l.elements.take (l.grow n).size
  rw [l.elements_grow, l.size_grow, List.take_of_length_le]
  rw [l.length_elements]
  exact le_max_left _ _

theorem keeps_of_eq {l l' : SpareList T} (h : l'.elements = l.elements) :
    (contentsOf l).Keeps (contentsOf l') := by
  have hsize : l'.size = l.size := by rw [← l'.length_elements, h, l.length_elements]
  show l'.elements.take l.size = l.elements.take l'.size
  rw [h, hsize]

theorem Rep.contents {s : State ι T} {t : ι → SpareList T}
    (h : Rep P s.memory s.buffers t) :
    s.contents = fun k => contentsOf (t k) := by
  funext k
  have hcells : s.memory.cells (s.buffers k).data = some (t k).cells := h.owned.cells k
  rw [State.contents, hcells, h.size, h.maxSize]
  rfl

variable [DecidableEq ι]

theorem setSize_effect (t : ι → SpareList T) (k : ι) (n : Nat) :
    Effect (fun j => contentsOf (t j))
      (fun j => contentsOf (update t k ((t k).setSize n).2 j)) (.setSize k n)
      (.result ((t k).setSize n).1) := by
  by_cases hn : (t k).cells.length < n
  · rw [(t k).setSize_of_lt hn, update_eq_self]
    exact (if_pos hn).mpr ⟨rfl, rfl⟩
  · rw [(t k).setSize_of_le (Nat.not_lt.mp hn)]
    refine (if_neg hn).mpr ⟨rfl, ?_⟩
    simp only [update_self]
    rfl

theorem lists_effect {t t' : ι → SpareList T} {op : Op ι T} {out : Output}
    (h : lists.step t op = some (out, t')) :
    Effect (fun j => contentsOf (t j)) (fun j => contentsOf (t' j)) op out := by
  cases op with
  | resize k n =>
      cases h
      simp only [Effect, update_self]
      exact ⟨(t k).size_resize, keeps_resize _ n⟩
  | grow k n =>
      cases h
      simp only [Effect, update_self]
      exact ⟨(t k).size_grow, keeps_grow _ n⟩
  | reserve k n =>
      cases h
      simp only [Effect, update_self]
      exact ⟨(t k).size_reserve, (t k).capacity_reserve, keeps_of_eq (t k).elements_reserve⟩
  | reset k n =>
      cases h
      simp only [Effect, update_self]
      exact (t k).size_reset
  | append k data =>
      cases h
      simp only [Effect, update_self]
      exact (t k).elements_append
  | replace k data =>
      cases h
      simp only [Effect, update_self]
      exact (t k).elements_replace
  | pack k =>
      cases h
      simp only [Effect, update_self]
      exact ⟨rfl, length_resized .., keeps_of_eq (t k).elements_pack⟩
  | setSize k n =>
      cases h
      exact setSize_effect t k n
  | clear k =>
      cases h
      simp only [Effect, update_self]
      rfl
  | swap k m =>
      cases h
      simp only [Effect, comp_apply, Equiv.swap_apply_left, Equiv.swap_apply_right, and_self]
  | move k m =>
      cases h
      simp only [Effect, comp_apply, Equiv.swap_apply_left, Equiv.swap_apply_right, and_self]
  | copy k m =>
      cases h
      by_cases hkm : k = m
      · subst hkm
        simp only [Effect, if_pos]
      · simp only [Effect, if_neg hkm, update_self]
        exact (t k).elements_replace
  | copyConstruct k m =>
      obtain ⟨-, he⟩ := Option.ite_none_left_eq_some.mp h
      cases he
      simp only [Effect, update_self]
      exact SpareList.empty.elements_replace
  | moveConstruct k m =>
      obtain ⟨hkm, he⟩ := Option.ite_none_left_eq_some.mp h
      cases he
      simp only [Effect, comp_apply, Equiv.swap_apply_left, Equiv.swap_apply_right, update_self,
        update_of_ne (Ne.symm hkm), contentsOf_empty, and_self]
  | put k i x =>
      obtain ⟨hi, he⟩ := Option.ite_none_right_eq_some.mp h
      cases he
      simp only [Effect, update_self]
      exact (t k).elements_write_singleton _ hi

theorem lists_frame {t t' : ι → SpareList T} {op : Op ι T} {out : Output}
    (h : lists.step t op = some (out, t')) {j : ι} (hj : ¬ op.Changes j) : t' j = t j := by
  cases op with
  | swap k m | move k m =>
      cases h
      obtain ⟨hk, hm⟩ := not_or.mp hj
      rw [comp_apply, Equiv.swap_apply_of_ne_of_ne hk hm]
  | moveConstruct k m =>
      obtain ⟨-, he⟩ := Option.ite_none_left_eq_some.mp h
      cases he
      obtain ⟨hk, hm⟩ := not_or.mp hj
      rw [comp_apply, Equiv.swap_apply_of_ne_of_ne hk hm, update_of_ne hk]
  | copy k m =>
      cases h
      split_ifs
      · rfl
      · exact update_of_ne hj _ _
  | copyConstruct k m =>
      obtain ⟨-, he⟩ := Option.ite_none_left_eq_some.mp h
      cases he
      exact update_of_ne hj _ _
  | put k i x =>
      obtain ⟨-, he⟩ := Option.ite_none_right_eq_some.mp h
      cases he
      exact update_of_ne hj _ _
  | _ =>
      cases h
      exact update_of_ne hj _ _

/-! ## Programs -/

variable {s : State ι T} {t : ι → SpareList T}

/-- A call of a function that gives `l` for the buffer `k` is answered as the lists answer it. -/
theorem Gives.step {k : ι} {f : Option (Buffer × Memory T)} {l : SpareList T} {op : Op ι T}
    (h : Gives P s.buffers t k f l) (hs : (buffers P).step s op = f.map (s.set k))
    (ht : lists.step t op = some (.done, update t k l)) :
    ∃ out s' t', (buffers P).step s op = some (out, s') ∧ lists.step t op = some (out, t') ∧
      Rep P s'.memory s'.buffers t' := by
  obtain ⟨r, rfl, hr⟩ := h
  exact ⟨.done, _, _, hs, ht, hr⟩

theorem State.buffers_exchange (s : State ι T) (k m : ι) :
    (s.exchange k m).buffers = s.buffers ∘ Equiv.swap k m := by
  rw [Equiv.swap_comm, Equiv.comp_swap_eq_update]
  rfl

theorem Rep.exchange (h : Rep P s.memory s.buffers t) (k m : ι) :
    Rep P (s.exchange k m).memory (s.exchange k m).buffers (t ∘ Equiv.swap k m) := by
  rw [s.buffers_exchange]
  exact h.swap k m

/-- **One step.** A call that meets its precondition is answered, as the lists answer it. -/
theorem step_spec (h : Rep P s.memory s.buffers t) {op : Op ι T} (hpre : Pre P s op) :
    ∃ out s' t', (buffers P).step s op = some (out, s') ∧ lists.step t op = some (out, t') ∧
      Rep P s'.memory s'.buffers t' := by
  cases op with
  | resize k n => exact (resize_spec h k hpre).step rfl rfl
  | grow k n => exact (grow_spec h k hpre).step rfl rfl
  | reserve k n => exact (reserve_spec h k (Params.Fits.bytes hpre)).step rfl rfl
  | reset k n => exact (reset_spec h k hpre).step rfl rfl
  | append k data => exact (append_spec h k hpre.1 hpre.2).step rfl rfl
  | replace k data => exact (replace_spec h k hpre.1 hpre.2.bytes).step rfl rfl
  | pack k => exact (pack_spec h k).step rfl rfl
  | setSize k n =>
      obtain ⟨hout, hrep⟩ := setSize_spec h k n
      refine ⟨.result ((t k).setSize n).1,
        ⟨s.memory, update s.buffers k (setSize (s.buffers k) n).2⟩, _, ?_, rfl, hrep⟩
      rw [← hout]
      rfl
  | clear k => exact (clear_spec h k).step rfl rfl
  | swap k m => exact ⟨_, _, _, rfl, rfl, h.exchange k m⟩
  | move k m =>
      by_cases hkm : k = m
      · refine ⟨_, s, _, by simp only [buffers, if_pos hkm], rfl, ?_⟩
        rwa [hkm, Equiv.swap_self]
      · exact ⟨_, _, _, by simp only [buffers, if_neg hkm], rfl, h.exchange k m⟩
  | copy k m =>
      by_cases hkm : k = m
      · refine ⟨_, s, t, if_pos hkm, by simp only [lists, if_pos hkm], h⟩
      · have hm : (t m).size ≠ 0 := by
          rw [← h.size]
          exact hpre.resolve_left hkm
        exact (replaceFrom_spec h hkm hm).step (if_neg hkm) (by simp only [lists, if_neg hkm])
  | copyConstruct k m => exact (copyConstruct_spec h hpre).step (if_neg hpre) (if_neg hpre)
  | moveConstruct k m =>
      -- the new buffer takes the place of the old one as if the two were exchanged
      obtain ⟨r, hr, hrep⟩ := clear_spec h k
      have hrep : Rep P (s.set k r).2.memory (s.set k r).2.buffers _ := hrep
      refine ⟨.done, (s.set k r).2.exchange k m, _, ?_, if_neg hpre, hrep.exchange k m⟩
      obtain ⟨H', -, rfl⟩ := Option.map_eq_some_iff.mp hr
      refine (if_neg hpre).trans ?_
      simp only [hr, Option.map_some, State.set, State.exchange, update_self,
        update_of_ne (Ne.symm hpre), update_idem]
  | put k i x =>
      have hi : i < (t k).size := by
        rw [← h.size]
        exact hpre
      obtain ⟨H', hwrite, hrep⟩ :=
        h.write (k := k) (List.cons_ne_nil (some x) []) (Nat.lt_of_lt_of_le hi (t k).size_le)
      refine ⟨_, ⟨H', s.buffers⟩, _, ?_, if_pos hi, hrep⟩
      refine (if_pos hpre).trans ?_
      rw [put, hwrite, Option.map_some]

theorem rep_of_trace {tr : List (Op ι T × Output)} (h : (buffers P).Trace tr s)
    (hpre : (buffers P).Guarded (Pre P) tr) :
    ∃ t, lists.Trace tr t ∧ Rep P s.memory s.buffers t := by
  refine h.guardedInv (fun tr s => ∃ t, lists.Trace tr t ∧ Rep P s.memory s.buffers t)
    ⟨_, .nil, rep_new⟩ ?_ hpre
  rintro tr s op out s' ⟨t, ht, hrep⟩ hop hs
  obtain ⟨out', s1, t', hs1, hstep, hrep'⟩ := step_spec hrep hop
  rw [hs] at hs1
  cases hs1
  exact ⟨t', ht.snoc hstep, hrep'⟩

/-- **`Buffer` refines a list with spare capacity.** After any run whose calls met their
preconditions the buffers have the contents of lists with spare capacity that answered the same
calls with the same results. The size is at most the capacity, and as many elements as the capacity
says are allocated. Every further call that meets its precondition is answered, and does to the
contents of the buffers what `Spec` says. -/
theorem refines_spareList {tr : List (Op ι T × Output)} (h : (buffers P).Trace tr s)
    (hpre : (buffers P).Guarded (Pre P) tr) :
    (∃ t, lists.Trace tr t ∧ ∀ k, s.contents k = contentsOf (t k)) ∧
    (∀ k, (s.buffers k).size ≤ (s.buffers k).maxSize ∧
      s.memory.cells (s.buffers k).data = some (s.contents k).cells ∧
      (s.contents k).cells.length = (s.buffers k).maxSize) ∧
    ∀ op, Pre P s op → ∃ out s', (buffers P).step s op = some (out, s') ∧
      Spec s.contents s'.contents op out := by
  obtain ⟨t, ht, hrep⟩ := rep_of_trace h hpre
  have hcontents := hrep.contents
  refine ⟨⟨t, ht, fun k => congrFun hcontents k⟩, fun k => ?_, fun op hop => ?_⟩
  · rw [hcontents, hrep.size, hrep.maxSize]
    exact ⟨(t k).size_le, hrep.owned.cells k, rfl⟩
  · obtain ⟨out, s', t', hs, ht', hrep'⟩ := step_spec hrep hop
    refine ⟨out, s', hs, ?_⟩
    rw [hcontents, hrep'.contents]
    exact ⟨lists_effect ht', fun j hj => congrArg contentsOf (lists_frame ht' hj)⟩

def words : Params := ⟨4, true, by decide⟩

/-- Three elements are appended to a buffer, and it is copied, shrunk and packed. -/
def packedHistory : List (Op Bool Nat) :=
  [.append false [some 1, some 2, some 3], .copy true false, .resize false 2, .pack false]

theorem refines_spareList_packed :
    ∃ tr s, (buffers words).Trace tr s ∧ tr.map Prod.fst = packedHistory ∧
      (buffers words).Guarded (Pre words) tr ∧
      (s.contents false).elements = [some 1, some 2] ∧
      (s.contents true).elements = [some 1, some 2, some 3] ∧
      (s.buffers false).size ≤ (s.buffers false).maxSize ∧
      ∃ out s', (buffers words).step s (.replace false [some 7]) = some (out, s') ∧
        Spec s.contents s'.contents (.replace false [some 7]) out := by
  have htrace := Machine.Trace.of_run (M := buffers words) packedHistory rfl
  have hmeets : (buffers words).meets (Pre words) packedHistory (buffers words).init := by
    refine ⟨⟨by simp, by decide⟩, fun r1 h1 => ⟨Or.inr ?_, fun r2 h2 => ⟨?_, fun r3 h3 =>
      ⟨trivial, fun _ _ => trivial⟩⟩⟩⟩
    · cases h1
      decide
    · exact (by decide : words.Fits 2)
  have hguard := Machine.guarded_of_run (M := buffers words) packedHistory rfl hmeets
  obtain ⟨-, hsize, hnext⟩ := refines_spareList htrace hguard
  exact ⟨_, _, htrace, rfl, hguard, rfl, rfl, (hsize false).1,
    hnext (.replace false [some 7]) ⟨by simp, by decide⟩⟩

end Buffer

end Lunchbox
