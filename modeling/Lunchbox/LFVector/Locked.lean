import Lunchbox.Lib.Deadlock
import Lunchbox.LFVector.Accesses

set_option autoImplicit false

/-! # `LFVector` used by several threads with its locks

Each function that changes a vector as a whole holds its spin lock from the beginning to the end.
`operator=` locks the vector it changes and then, with a lock of its own, the one it copies. All
functions run access by access (`Accesses.lean`) while other threads go on with other vectors. The
functions of this module are those that take the lock before their first access to the vector: not
`operator[]`, not `operator==`, and not `erase(pos)`, which looks at the size first.

The lock is only taken for writing here. It is a word that is set or not, as
`SpinLock` has shown.
-/

namespace Lunchbox.LFVector.Locked

open StateMachine Linearizability TwoPhase Function

variable {T : Type} [DecidableEq T]

/-! ## The functions -/

inductive Op (T : Type)
  | pushBack (k : Nat) (x : T)
  | popBack (k : Nat)
  /-- `pop_back(element)` -/
  | popBackTo (k : Nat)
  /-- `erase(element)` -/
  | erase (k : Nat) (x : T)
  | expand (k n : Nat) (x : T)
  | resize (k n : Nat) (x : T)
  | clear (k : Nat)
  /-- `vectors[k] = vectors[m]` -/
  | assign (k m : Nat)

/-- The same function in a program with one thread. -/
def Op.sequential : Op T → LFVector.Op T
  | .pushBack k x => .pushBack k x
  | .popBack k => .popBack k
  | .popBackTo k => .popBackTo k
  | .erase k x => .erase k x
  | .expand k n x => .expand k n x
  | .resize k n x => .resize k n x
  | .clear k => .clear k
  | .assign k m => .assign k m

/-- The vectors that a function locks, in this order. -/
def Op.locks : Op T → List Nat
  | .pushBack k _ | .popBack k | .popBackTo k | .erase k _ | .expand k _ _ | .resize k _ _
  | .clear k => [k]
  -- assigning a vector to itself returns at once
  | .assign k m => if k = m then [] else [k, m]

/-- A place in the body of a function. -/
inductive Point (T : Type)
  /-- a vector that is assigned to itself is returned -/
  | same
  /-- a function of one vector -/
  | one (k : Nat) (p : Access T)
  /-- `operator=` -/
  | copy (k m : Nat) (p : Copy T)

def Op.start : Op T → Point T
  | .pushBack k x => .one k (.position x (.ret .done))
  | .popBack k => .one k (.empty false)
  | .popBackTo k => .one k (.empty true)
  | .erase k x => .one k (.search x)
  | .expand k n x => .one k (.below n x)
  | .resize k n x => .one k (.above (.resize n x))
  | .clear k => .one k (.above .clear)
  | .assign k m => if k = m then .same else .copy k m .restart

/-- The next access of a body. -/
def Point.step (P : Params T) (s : Nat → LFVector T) :
    Point T → Option ((Nat → LFVector T) × (Point T ⊕ Output T))
  | .same => some (s, .inr .done)
  | .one k p => (p.step P (s k)).map fun o => (update s k o.1, o.2.map (.one k) id)
  | .copy k m p => (p.step P (s m) (s k)).map fun o => (update s k o.1, o.2.map (.copy k m) id)

/-- The functions with their locks. -/
def code (P : Params T) : Code Nat (LFVector T) (Op T) (Output T) (Point T) where
  locks := Op.locks
  start := Op.start
  step := Point.step P

/-! ## A body computes the function -/

/-- The vectors with their functions as single steps. -/
def atomicVectors (P : Params T) : Object (Nat → LFVector T) (Op T) (Output T) where
  init _ := new
  apply s op := (vectors P).step s op.sequential

/-- The lists that the vectors stand for. -/
def atomicLists (P : Params T) : Object (Nat → List T) (Op T) (Output T) where
  init _ := []
  apply t op := (lists (2 ^ P.nSlots - 1)).step t op.sequential

section
variable {P : Params T} {s a : Nat → LFVector T} {v v' : LFVector T} {k m i j n : Nat} {op : Op T}
  {p : Point T} {r : Output T}

theorem ends_one {q : Access T} (h : Runs (Access.step P) (s k) q v (.inr r)) :
    (code P).Ends s (.one k q) (update s k v) r := by
  refine h.ends fun x p => ?_
  simp only [code, Point.step, update_self, update_idem]

theorem ends_copy {q : Copy T} (hkm : k ≠ m) (h : Runs (Copy.step P (s m)) (s k) q v (.inr r)) :
    (code P).Ends s (.copy k m q) (update s k v) r := by
  refine h.ends fun x p => ?_
  simp only [code, Point.step, update_self, update_idem, update_of_ne hkm.symm]

/-- Each body, run alone, computes what the function does in a program with one thread. -/
theorem ends_start (hs : (vectors P).step s op.sequential = some (r, a)) :
    (code P).Ends s op.start a r := by
  cases op with
  | pushBack k x =>
      obtain ⟨o, ho, he⟩ := Option.map_eq_some_iff.mp hs
      cases he
      refine ends_one ?_
      have hpush := runs_push (.ret .done) ho
      rwa [show (if o.1 then (After.ret .done : After T).rest else .inr .thrown)
        = .inr (outcome o.1) by cases o.1 <;> rfl] at hpush
  | popBack k =>
      obtain ⟨v, hv, he⟩ := Option.map_eq_some_iff.mp hs
      cases he
      exact ends_one (runs_popBack hv)
  | popBackTo k =>
      obtain ⟨o, ho, he⟩ := Option.map_eq_some_iff.mp hs
      cases he
      exact ends_one (runs_popBackTo ho)
  | erase k x =>
      obtain ⟨o, ho, he⟩ := Option.map_eq_some_iff.mp hs
      cases he
      exact ends_one (runs_erase ho)
  | expand k n x =>
      obtain ⟨o, ho, he⟩ := Option.map_eq_some_iff.mp hs
      cases he
      exact ends_one (runs_fill ho)
  | resize k n x =>
      obtain ⟨o, ho, he⟩ := Option.map_eq_some_iff.mp hs
      cases he
      exact ends_one (runs_resize ho)
  | clear k =>
      obtain ⟨v, hv, he⟩ := Option.map_eq_some_iff.mp hs
      cases he
      exact ends_one (runs_clear hv)
  | assign k m =>
      by_cases hkm : k = m
      · -- nothing is copied
        simp only [Op.sequential, vectors, if_pos hkm] at hs
        cases hs
        rw [show (Op.assign k m : Op T).start = .same from if_pos hkm]
        exact .done rfl
      · simp only [Op.sequential, vectors, if_neg hkm] at hs
        obtain ⟨v, hv, he⟩ := Option.map_eq_some_iff.mp hs
        cases he
        rw [show (Op.assign k m : Op T).start = .copy k m .restart from if_neg hkm]
        exact ends_copy hkm (runs_assign hv)

theorem code_implements (P : Params T) :
    (code P).Implements (atomicVectors P) fun s => ∃ t, Holds P s t := by
  refine ⟨⟨_, fun _ => rep_new⟩, fun s op ⟨t, h⟩ => ?_⟩
  obtain ⟨b, s', t', hs, -, h'⟩ := step_spec h op.sequential
  exact ⟨b, s', hs, ⟨t', h'⟩, ends_start hs⟩

/-! ## A body uses only what it has locked -/

/-- The vectors that are accessed at a place. -/
def Point.vectors : Point T → List Nat
  | .same => []
  | .one k _ => [k]
  | .copy k m _ => [k, m]

omit [DecidableEq T] in
theorem vectors_start (op : Op T) : op.start.vectors = op.locks := by
  cases op with
  | assign k m =>
      by_cases hkm : k = m
      · simp only [Op.start, Op.locks, if_pos hkm, Point.vectors]
      · simp only [Op.start, Op.locks, if_neg hkm, Point.vectors]
  | _ => rfl

/-- A body stays with its vectors. -/
theorem vectors_step {p' : Point T} (hs : Point.step P s p = some (a, .inl p')) :
    p'.vectors = p.vectors := by
  cases p with
  | same => cases hs
  | one k q =>
      obtain ⟨⟨v, o⟩, -, he⟩ := Option.map_eq_some_iff.mp hs
      cases o <;> cases he
      rfl
  | copy k m q =>
      obtain ⟨⟨v, o⟩, -, he⟩ := Option.map_eq_some_iff.mp hs
      cases o <;> cases he
      rfl

theorem vectors_of_at (h : (code P).At op p) : p.vectors = op.locks := by
  induction h with
  | start => exact vectors_start op
  | step _ hs ih => exact (vectors_step hs).trans ih

theorem step_local (p : Point T) (b e : Nat → LFVector T) :
    Point.step P (merge p.vectors b e) p
      = (Point.step P b p).map fun q => (merge p.vectors q.1 e, q.2) := by
  cases p with
  | same => rfl
  | one k q =>
      simp only [Point.step, Point.vectors, merge_of_mem List.mem_cons_self,
        merge_update List.mem_cons_self, Option.map_map]
      rfl
  | copy k m q =>
      have hm : m ∈ [k, m] := List.mem_cons_of_mem _ List.mem_cons_self
      simp only [Point.step, Point.vectors, merge_of_mem List.mem_cons_self, merge_of_mem hm,
        merge_update List.mem_cons_self, Option.map_map]
      rfl

theorem code_local (P : Params T) : (code P).Local := by
  refine ⟨fun op => ?_, fun op p b e hat => ?_⟩
  · cases op with
    | assign k m =>
        show (if k = m then [] else [k, m]).Nodup
        split
        next => exact List.nodup_nil
        next hkm => simpa using hkm
    | _ => exact List.nodup_singleton _
  · rw [show (code P).locks op = p.vectors from (vectors_of_at hat).symm]
    exact step_local p b e
end

/-! ## Results -/

variable {ι : Type} [DecidableEq ι]

abbrev Shared (ι T : Type) : Type :=
  TwoPhase.State ι Nat (LFVector T) (Op T) (Output T) (Point T)

abbrev History (ι T : Type) : Type := List (TwoPhase.Action ι (Op T) × Option (Output T))

/-- The vectors with their locks and their threads. -/
def threads (P : Params T) :
    Machine (Shared ι T) (TwoPhase.Action ι (Op T)) (Option (Output T)) :=
  locking (code P) (atomicVectors P).init

/-- **The locked functions of vectors are linearizable**, as functions of lists. In particular
`operator=` copies the vector as it is at one moment between its call and its return. -/
theorem locked_vectors_linearizable (P : Params T) {tr : History ι T} {s : Shared ι T}
    (ht : (threads P).Trace tr s) :
    Linearizable (atomicLists P) (tr.flatMap TwoPhase.see) := by
  refine (two_phase_linearizable (code_local P) (code_implements P) ht).refine (Holds P)
    (fun _ => rep_new) fun a a' op r b h hs => ?_
  obtain ⟨r', b', c, hs', hlist, h'⟩ := step_spec h op.sequential
  have hs : (vectors P).step a op.sequential = some (r, b) := hs
  rw [hs'] at hs
  cases hs
  exact ⟨c, hlist, h'⟩

/-- A vector is to be copied while another thread appends to it; the copy waits for its lock. -/
def copyHistory : List (TwoPhase.Action Bool (Op Nat)) :=
  (.call false (.pushBack 1 7) :: List.replicate 9 (.step false)) ++
    [.call false (.assign 0 1), .call true (.pushBack 1 8), .step false, .step true, .step false] ++
    List.replicate 8 (.step true) ++ List.replicate 26 (.step false)

theorem copied_vector_linearizable :
    Linearizable (atomicLists ⟨2, 0, 0, none⟩) [.call false (.pushBack 1 7), .ret false .done,
      .call false (.assign 0 1), .call true (.pushBack 1 8), .ret true .done,
      .ret false .done] := by
  have h := Machine.Trace.of_run (M := threads (⟨2, 0, 0, none⟩ : Params Nat)) copyHistory rfl
  exact locked_vectors_linearizable _ h

/-! ## Deadlock -/

section
variable {P : Params T} {s : Shared ι T} {t u : ι}
  {D : Set ι}

/-- The thread is in an assignment. It has locked the vector it assigns to, and waits for the other
one, which `u` has locked. -/
def Crossed (s : Shared ι T) (t u : ι) : Prop :=
  ∃ k m, s.place t = .acquiring (.assign k m) [k] [m] ∧ m ∈ (s.place u).held

omit [DecidableEq T] [DecidableEq ι] in
theorem Crossed.needs (h : Crossed s t u) : s.Needs t u := by
  obtain ⟨k, m, hpl, hu⟩ := h
  exact ⟨_, _, _, hpl, m, List.mem_cons_self, hu⟩

omit [DecidableEq T] in
/-- Only an assignment has two locks. -/
theorem locks_split {op : Op T} {a b : List Nat} (h : a ++ b = op.locks) (ha : a ≠ [])
    (hb : b ≠ []) : ∃ k m, op = .assign k m ∧ a = [k] ∧ b = [m] := by
  obtain ⟨x, a, rfl⟩ := List.exists_cons_of_ne_nil ha
  obtain ⟨y, b, rfl⟩ := List.exists_cons_of_ne_nil hb
  cases op with
  | assign k m =>
      by_cases hkm : k = m
      · simp [Op.locks, hkm] at h
      · rw [show (Op.assign k m : Op T).locks = [k, m] from if_neg hkm] at h
        have hlen := congrArg List.length h
        have hnil : a = [] ∧ b = [] := by
          simp only [List.length_append, List.length_cons, List.length_nil] at hlen
          rw [← List.length_eq_zero_iff, ← List.length_eq_zero_iff]
          omega
        obtain ⟨rfl, rfl⟩ := hnil
        simp only [List.cons_append, List.nil_append, List.cons.injEq, and_true] at h
        exact ⟨k, m, rfl, by rw [h.1], by rw [h.2]⟩
  | _ => simp [Op.locks] at h

omit [DecidableEq ι] in
/-- Only an assignment waits for a lock while it holds one. -/
theorem crossed_of_needs (hinv : TwoPhase.Inv (code P) s) (h : s.Needs t u)
    (ht : (s.place t).held ≠ []) : Crossed s t u := by
  obtain ⟨op, held, todo, hpl, v, hv, hu⟩ := h
  have hf := hinv.fits t
  rw [hpl] at hf ht
  have hheld : held.reverse ≠ [] := fun hnil => ht (List.reverse_eq_nil_iff.mp hnil)
  obtain ⟨k, m, rfl, hk, rfl⟩ := locks_split hf hheld (List.ne_nil_of_mem hv)
  rw [List.reverse_eq_iff] at hk
  cases List.mem_singleton.mp hv
  exact ⟨k, v, by rw [hpl, hk]; rfl, hu⟩

omit [DecidableEq ι] in
/-- A deadlock is a cycle of assignments, and the threads that wait for it. -/
theorem deadlocked_iff [Fintype ι] (hinv : TwoPhase.Inv (code P) s) :
    (∃ D, t ∈ D ∧ s.Deadlocked D) ↔
      ∃ u, Relation.ReflTransGen s.Needs t u ∧ Relation.TransGen (Crossed s) u u := by
  constructor
  · rintro ⟨D, ht, hD⟩
    -- the threads that `t` waits for, with the locks that it needs
    let S : Set ι := {u | u ∈ D ∧ (s.place u).held ≠ [] ∧ Relation.ReflTransGen s.Needs t u}
    have hnext : ∀ u ∈ D, Relation.ReflTransGen s.Needs t u → ∃ w ∈ S, s.Needs u w := by
      intro u hu htu
      obtain ⟨w, hw, huw⟩ := hD u hu
      have hheld : (s.place w).held ≠ [] := by
        obtain ⟨_, _, _, -, v, -, hv⟩ := huw
        exact List.ne_nil_of_mem hv
      exact ⟨w, ⟨hw, hheld, htu.tail huw⟩, huw⟩
    obtain ⟨w, hw, -⟩ := hnext t ht .refl
    obtain ⟨u, hu, hcycle⟩ := exists_cycle (r := Crossed s) hw fun x hx => by
      obtain ⟨y, hy, hxy⟩ := hnext x hx.1 hx.2.2
      exact ⟨y, hy, crossed_of_needs hinv hxy hx.2.1⟩
    exact ⟨u, hu.2.2, hcycle⟩
  · rintro ⟨u, htu, hcycle⟩
    refine ⟨{w | ∃ u, Relation.ReflTransGen s.Needs w u ∧ Relation.TransGen (Crossed s) u u},
      ⟨u, htu, hcycle⟩, ?_⟩
    rintro w ⟨u, hwu, hcycle⟩
    rcases Relation.ReflTransGen.cases_head hwu with rfl | ⟨x, hwx, hxu⟩
    · obtain ⟨x, hwx, hxw⟩ := Relation.TransGen.head'_iff.mp hcycle
      exact ⟨x, ⟨w, hxw.lift id fun _ _ => Crossed.needs, hcycle⟩, hwx.needs⟩
    · exact ⟨x, ⟨u, hxu, hcycle⟩, hwx⟩

variable [Fintype ι]

/-- **What `operator=` can block.** An operation can be completed, whatever the threads have done so
far, unless its thread waits for a cycle of assignments each of which has locked its own vector and
waits for the next one. -/
theorem operation_completes_iff {tr : History ι T}
    (ht : (threads P).Trace tr s) :
    Completes (code P) (atomicVectors P).init tr t ↔
      ¬ ∃ u, Relation.ReflTransGen s.Needs t u ∧ Relation.TransGen (Crossed s) u u := by
  rw [completes_iff (code_local P) (code_implements P) ht,
    deadlocked_iff (inv_of_trace (code_local P) ht)]

/-- `a = b` in one thread and `b = a` in another one, as the source warns. -/
def crossHistory : List (TwoPhase.Action Bool (Op Nat)) :=
  [.call false (.assign 0 1), .call true (.assign 1 0), .step false, .step true]

theorem crossed_assignments_block :
    ∃ tr s, (threads (⟨2, 0, 0, none⟩ : Params Nat)).Trace tr s ∧
      Relation.TransGen (Crossed s) false false ∧
      ¬ Completes (code (⟨2, 0, 0, none⟩ : Params Nat)) (atomicVectors ⟨2, 0, 0, none⟩).init tr
        false := by
  have h := Machine.Trace.of_run (M := threads (⟨2, 0, 0, none⟩ : Params Nat)) crossHistory rfl
  refine ⟨_, _, h, ?cycle, fun hc => (operation_completes_iff h).mp hc ⟨false, .refl, ?cycle⟩⟩
  refine .tail (.single ?_) (b := true) ?_
  · exact ⟨0, 1, rfl, List.mem_cons_self⟩
  · exact ⟨1, 0, rfl, List.mem_cons_self⟩

/-- If vectors are only assigned to vectors of a lower rank, every operation can be completed. -/
theorem ordered_assignments_complete {tr : History ι T}
    (ht : (threads P).Trace tr s) (rank : Nat → Nat)
    (hrank : ∀ u k m o, (.call u (.assign k m), o) ∈ tr → k = m ∨ rank k < rank m) (t : ι) :
    Completes (code P) (atomicVectors P).init tr t := by
  rw [completes_iff (code_local P) (code_implements P) ht]
  refine not_deadlocked_of_rank rank (inv_of_trace (code_local P) ht) fun u op held todo hpl => ?_
  obtain ⟨o, ho⟩ := called_of_trace ht hpl
  cases op with
  | assign k m =>
      show (if k = m then [] else [k, m]).Pairwise _
      split
      next => exact .nil
      next hkm => simpa using (hrank u k m o ho).resolve_left hkm
  | _ => exact List.pairwise_singleton _ _

/-- Two threads assign the vector 1, at the same time. -/
theorem ordered_copies_complete :
    ∃ tr s, (threads (⟨2, 0, 0, none⟩ : Params Nat)).Trace tr s ∧
      Completes (code (⟨2, 0, 0, none⟩ : Params Nat)) (atomicVectors ⟨2, 0, 0, none⟩).init tr
        true := by
  have h := Machine.Trace.of_run (M := threads (⟨2, 0, 0, none⟩ : Params Nat))
    [.call false (.assign 0 1), .call true (.assign 0 1), .step false, .step true] rfl
  refine ⟨_, _, h, ordered_assignments_complete h id ?_ true⟩
  intro u k m o hm
  simp only [List.mem_cons, List.not_mem_nil, or_false, Prod.mk.injEq,
    TwoPhase.Action.call.injEq, Op.assign.injEq, reduceCtorEq, false_and] at hm
  grind
end

end Lunchbox.LFVector.Locked
