import Lunchbox.LFQueue

set_option autoImplicit false

/-! # `LFQueue::clear`

The reader calls `clear`, which stores 0 to `_readPos` and then to `_writePos`, while the writer may
be at any point of `push`. Everywhere else `_writePos` is stored by the writer only, and `push`
relies on this: it loads `_writePos`, stores the element, and then stores the next position. If
`clear` stores `_writePos` in between, the push makes the queue end at a position that belongs to
the old contents, and the cells before it become readable.

The machine starts in a state of the queue in which the reader is idle. After `clear` the reader may
go on with `pop` and `getFront`.
-/

namespace Lunchbox.LFQueue

open StateMachine

variable {T : Type}

/-! ## The machine -/

/-- The next store of `clear`. -/
inductive ClearPc
  /-- `_readPos = 0` -/
  | storeReadPos
  /-- `_writePos = 0` -/
  | storeWritePos
  | done
  deriving DecidableEq

structure Clearing (T : Type) where
  queue : State T
  pc : ClearPc

/-- A queue in the state `s` when the reader calls `clear`. While `clear` is executed, it has the
accesses of the reader; its end is not reported. -/
def clearing (dflt : T) (c : Nat) (s : State T) : Machine (Clearing T) (Action T) (Output T) where
  init := ⟨s, .storeReadPos⟩
  step s a :=
    match s.pc, a with
    | .storeReadPos, .reader =>
        some (.running, ⟨{ s.queue with readPos := 0 }, .storeWritePos⟩)
    | .storeWritePos, .reader => some (.running, ⟨{ s.queue with writePos := 0 }, .done⟩)
    | .storeReadPos, .pop => none
    | .storeReadPos, .getFront => none
    | .storeWritePos, .pop => none
    | .storeWritePos, .getFront => none
    | pc, a => ((queue dflt c).step s.queue a).map fun r => (r.1, ⟨r.2, pc⟩)

/-- The cells from the read to the write position. -/
def State.unread (s : State T) : List (Option T) :=
  let n := s.data.length
  (List.range ((s.writePos + n - s.readPos) % n)).map fun i => (s.data[(s.readPos + i) % n]?).join

/-- The position that the writer is going to store. -/
def WriterPc.nextPos : WriterPc T → Option Nat
  | .idle => none
  | .loadWritePos _ => none
  | .loadReadPos _ nextPos => some nextPos
  | .loadIndex _ nextPos => some nextPos
  | .storing _ nextPos _ => some nextPos
  | .stored _ nextPos _ => some nextPos
  | .publish _ nextPos => some nextPos

/-- When `clear` stores `_writePos`, the writer is not going to store a position, or only one that
has at most one cell before it. -/
def Settled (s : Clearing T) : Action T → Prop
  | .reader => s.pc = .storeWritePos → ∀ nextPos ∈ s.queue.writer.nextPos, nextPos ≤ 1
  | _ => True

instance (s : Clearing T) : DecidablePred (Settled s)
  | .reader => inferInstanceAs (Decidable (_ → ∀ nextPos ∈ s.queue.writer.nextPos, nextPos ≤ 1))
  | .push _ | .pop | .getFront | .writer => isTrue trivial

/-! ## Unread cells -/

theorem ring_distance {N k d : Nat} (hd : d < N) : ((k + d) % N + N - k % N) % N = d := by
  have hk : k % N < N := Nat.mod_lt _ (by omega)
  have hsum : (k + d) % N = (k % N + d) % N := by rw [Nat.mod_add_mod]
  rw [hsum]
  by_cases h : k % N + d < N
  · have hdist : k % N + d + N - k % N = d + N := by omega
    rw [Nat.mod_eq_of_lt h, hdist, Nat.add_mod_right, Nat.mod_eq_of_lt hd]
  · -- the write position is in the next lap
    have hlap : (k % N + d) % N = k % N + d - N := by
      rw [Nat.mod_eq_sub_mod (Nat.le_of_not_lt h), Nat.mod_eq_of_lt (by omega)]
    have hdist : k % N + d - N + N - k % N = d := by omega
    rw [hlap, hdist, Nat.mod_eq_of_lt hd]

theorem Ring.unread {c k : Nat} {xs : List T} {s : State T} (h : Ring c xs k s) :
    s.unread = (xs.drop k).map some := by
  have hle := h.le
  have hroom := h.room
  have hcount : (s.writePos + (c + 1) - s.readPos) % (c + 1) = xs.length - k := by
    have hd := ring_distance (N := c + 1) (k := k) (d := xs.length - k) (by omega)
    rwa [Nat.add_sub_cancel' hle, ← h.writePos, ← h.readPos] at hd
  refine List.ext_getElem? fun i => ?_
  simp only [State.unread, h.length, hcount, List.getElem?_map, List.getElem?_drop]
  by_cases hi : i < xs.length - k
  · have hcell := h.cells (k + i) (Nat.le_add_right k i) (by omega)
    rw [List.getElem?_range hi, Option.map_some, h.readPos, Nat.mod_add_mod, hcell,
      List.getElem?_eq_getElem (by omega)]
    rfl
  · rw [List.getElem?_eq_none (by simpa using hi), List.getElem?_eq_none (by omega)]
    rfl

/-! ## During `clear` -/

/-- The writer's positions, as long as no other thread stores `_writePos`. -/
def WriterAt (c writePos : Nat) (data : List (Option T)) : WriterPc T → Prop
  | .idle => True
  | .loadWritePos _ => True
  | .loadReadPos _ nextPos => nextPos = (writePos + 1) % (c + 1)
  | .loadIndex _ nextPos => nextPos = (writePos + 1) % (c + 1)
  | .storing _ nextPos pos => nextPos = (writePos + 1) % (c + 1) ∧ pos = writePos
  | .stored _ nextPos pos => nextPos = (writePos + 1) % (c + 1) ∧ pos = writePos
  | .publish x nextPos =>
      nextPos = (writePos + 1) % (c + 1) ∧ data[writePos]? = some (some x)

/-- The state of the queue before `clear` stores `_writePos`. -/
structure Before (c : Nat) (s : State T) : Prop where
  length : s.data.length = c + 1
  writePos : s.writePos < c + 1
  writer : WriterAt c s.writePos s.data s.writer
  reader : s.reader = .idle

theorem Ring.before {c k : Nat} {xs : List T} {s : State T} (h : Ring c xs k s)
    (hr : s.reader = .idle) : Before c s := by
  have hpos := h.writePos
  have hlt : s.writePos < c + 1 := by
    rw [hpos]
    exact Nat.mod_lt _ (by omega)
  refine ⟨h.length, hlt, ?_, hr⟩
  have hw := h.writer
  have hnext : (s.writePos + 1) % (c + 1) = (xs.length + 1) % (c + 1) := by
    rw [hpos, Nat.mod_add_mod]
  cases hpc : s.writer with
  | idle => trivial
  | loadWritePos x => trivial
  | loadReadPos x nextPos =>
      rw [hpc] at hw
      exact Eq.trans hw hnext.symm
  | loadIndex x nextPos =>
      rw [hpc] at hw
      exact hw.1.trans hnext.symm
  | storing x nextPos pos =>
      rw [hpc] at hw
      exact ⟨hw.1.trans hnext.symm, hw.2.2.trans hpos.symm⟩
  | stored x nextPos pos =>
      rw [hpc] at hw
      exact ⟨hw.1.trans hnext.symm, hw.2.2.trans hpos.symm⟩
  | publish x nextPos =>
      rw [hpc] at hw
      refine ⟨hw.1.trans hnext.symm, ?_⟩
      rw [hpos]
      exact hw.2.2

theorem Before.advanceWriter {c : Nat} {s s' : State T} {o : Output T} (h : Before c s)
    (hs : s.advanceWriter = some (o, s')) :
    Before c s' ∧ s'.readPos = s.readPos ∧ ∀ v, o ≠ .popped v := by
  have hw := h.writer
  unfold State.advanceWriter at hs
  cases hpc : s.writer with
  | idle => simp [hpc] at hs
  | loadWritePos x =>
      simp only [hpc, Option.some.injEq, Prod.mk.injEq] at hs
      obtain ⟨rfl, rfl⟩ := hs
      refine ⟨{ h with writer := ?_ }, rfl, by simp⟩
      show (s.writePos + 1) % s.data.length = _
      rw [h.length]
  | loadReadPos x nextPos =>
      rw [hpc] at hw
      simp only [hpc] at hs
      split_ifs at hs
      · cases hs
        exact ⟨{ h with writer := trivial }, rfl, by simp⟩
      · cases hs
        exact ⟨{ h with writer := hw }, rfl, by simp⟩
  | loadIndex x nextPos =>
      rw [hpc] at hw
      simp only [hpc, Option.some.injEq, Prod.mk.injEq] at hs
      obtain ⟨rfl, rfl⟩ := hs
      exact ⟨{ h with writer := ⟨hw, rfl⟩ }, rfl, by simp⟩
  | storing x nextPos pos =>
      rw [hpc] at hw
      simp only [hpc, Option.some.injEq, Prod.mk.injEq] at hs
      obtain ⟨rfl, rfl⟩ := hs
      exact ⟨{ h with
        length := by rw [List.length_set]; exact h.length
        writer := hw }, rfl, by simp⟩
  | stored x nextPos pos =>
      rw [hpc] at hw
      simp only [hpc, Option.some.injEq, Prod.mk.injEq] at hs
      obtain ⟨rfl, rfl⟩ := hs
      obtain ⟨hn, rfl⟩ := hw
      refine ⟨{ h with
        length := by rw [List.length_set]; exact h.length
        writer := ⟨hn, ?_⟩ }, rfl, by simp⟩
      show (s.data.set _ _)[_]? = _
      rw [List.getElem?_set_self]
      rw [h.length]
      exact h.writePos
  | publish x nextPos =>
      rw [hpc] at hw
      simp only [hpc, Option.some.injEq, Prod.mk.injEq] at hs
      obtain ⟨rfl, rfl⟩ := hs
      refine ⟨{ h with writePos := ?_, writer := trivial }, rfl, by simp⟩
      show nextPos < c + 1
      rw [hw.1]
      exact Nat.mod_lt _ (by omega)

/-- The writer calls `push` or makes an access. -/
theorem Before.step {dflt : T} {c : Nat} {s s' : State T} {a : Action T} {o : Output T}
    (h : Before c s) (ha : a = .writer ∨ ∃ x, a = .push x)
    (hs : (queue dflt c).step s a = some (o, s')) :
    Before c s' ∧ s'.readPos = s.readPos ∧ ∀ v, o ≠ .popped v := by
  rcases ha with rfl | ⟨x, rfl⟩
  · exact h.advanceWriter hs
  · simp only [queue] at hs
    split at hs
    · cases hs
      exact ⟨{ h with writer := trivial }, rfl, by simp⟩
    · cases hs

/-! ## After `clear` -/

/-- The queue is empty, and the writer is going to store 0 to `_writePos`: the element that it
pushes is lost. -/
structure Lost (c : Nat) (s : State T) : Prop where
  ring : Ring c [] 0 { s with writer := .idle }
  nextPos : s.writer.nextPos = some 0

/-- `clear` has stored both positions while the writer was not going to store one of the old
contents. -/
theorem Before.settle {c : Nat} {s : State T} (h : Before c s) (hr : s.readPos = 0)
    (hsettled : ∀ nextPos ∈ s.writer.nextPos, nextPos ≤ 1) :
    Ring c [] 0 { s with writePos := 0 } ∨ Lost c { s with writePos := 0 } := by
  have hring : ∀ pc, WriterOk c 0 0 s.data pc →
      Ring c [] 0 { s with writePos := 0, writer := pc } := by
    intro pc hpc
    refine ⟨h.length, Nat.le_refl 0, Nat.zero_le _, (Nat.zero_mod _).symm, ?_, ?_, hpc, ?_⟩
    · rw [Nat.zero_mod]
      exact hr
    · exact fun i _ hi => absurd hi (Nat.not_lt_zero i)
    · show ReaderOk c [] 0 s.reader
      rw [h.reader]
      trivial
  have hw := h.writer
  by_cases h0 : s.writer.nextPos = some 0
  · exact Or.inr ⟨hring .idle trivial, h0⟩
  · -- what remains is a push that starts with the first cell, or none
    refine Or.inl (hring s.writer ?_)
    have hfirst : ∀ nextPos ∈ s.writer.nextPos, nextPos = (s.writePos + 1) % (c + 1) →
        nextPos = (0 + 1) % (c + 1) ∧ 0 < 0 + c ∧ s.writePos = 0 := by
      intro nextPos hmem hnext
      have hle := hsettled nextPos hmem
      have hne : nextPos ≠ 0 := by
        rintro rfl
        exact h0 hmem
      have hlt := h.writePos
      have hmod : s.writePos + 1 < c + 1 ∨ s.writePos + 1 = c + 1 := by omega
      rcases hmod with hmod | hmod
      · rw [Nat.mod_eq_of_lt hmod] at hnext
        rw [Nat.mod_eq_of_lt (by omega)]
        omega
      · rw [hmod, Nat.mod_self] at hnext
        exact absurd hnext hne
    cases hpc : s.writer with
    | idle => trivial
    | loadWritePos x => trivial
    | loadReadPos x nextPos =>
        rw [hpc] at hw hfirst
        exact (hfirst nextPos rfl hw).1
    | loadIndex x nextPos =>
        rw [hpc] at hw hfirst
        obtain ⟨hn, hc, -⟩ := hfirst nextPos rfl hw
        exact ⟨hn, hc⟩
    | storing x nextPos pos =>
        rw [hpc] at hw hfirst
        obtain ⟨hn, hc, hpos⟩ := hfirst nextPos rfl hw.1
        exact ⟨hn, hc, by rw [hw.2, hpos, Nat.zero_mod]⟩
    | stored x nextPos pos =>
        rw [hpc] at hw hfirst
        obtain ⟨hn, hc, hpos⟩ := hfirst nextPos rfl hw.1
        exact ⟨hn, hc, by rw [hw.2, hpos, Nat.zero_mod]⟩
    | publish x nextPos =>
        rw [hpc] at hw hfirst
        obtain ⟨hn, hc, hpos⟩ := hfirst nextPos rfl hw.1
        refine ⟨hn, hc, ?_⟩
        rw [Nat.zero_mod, ← hpos]
        exact hw.2

/-- The push that is lost leaves an empty queue. -/
theorem Lost.advanceWriter {c : Nat} {s s' : State T} {o : Output T} (h : Lost c s)
    (hs : s.advanceWriter = some (o, s')) :
    (∀ v, o ≠ .popped v) ∧ (Ring c [] 0 s' ∨ Lost c s') := by
  have hn := h.nextPos
  have hr : s.readPos = 0 := h.ring.readPos.trans (Nat.zero_mod _)
  have hdata : ∀ pos v, Ring c [] 0 { s with data := s.data.set pos v, writer := .idle } := by
    intro pos v
    refine { h.ring with length := ?_, cells := ?_, writer := trivial }
    · show (s.data.set pos v).length = c + 1
      rw [List.length_set]
      exact h.ring.length
    · exact fun i _ hi => absurd hi (Nat.not_lt_zero i)
  unfold State.advanceWriter at hs
  cases hpc : s.writer with
  | idle => simp [hpc] at hs
  | loadWritePos x =>
      rw [hpc] at hn
      cases hn
  | loadReadPos x nextPos =>
      rw [hpc] at hn
      cases hn
      simp only [hpc] at hs
      rw [if_pos hr.symm] at hs
      cases hs
      exact ⟨by simp, Or.inl h.ring⟩
  | loadIndex x nextPos =>
      rw [hpc] at hn
      cases hn
      simp only [hpc, Option.some.injEq, Prod.mk.injEq] at hs
      obtain ⟨rfl, rfl⟩ := hs
      exact ⟨by simp, Or.inr ⟨h.ring, rfl⟩⟩
  | storing x nextPos pos =>
      rw [hpc] at hn
      cases hn
      simp only [hpc, Option.some.injEq, Prod.mk.injEq] at hs
      obtain ⟨rfl, rfl⟩ := hs
      exact ⟨by simp, Or.inr ⟨hdata pos none, rfl⟩⟩
  | stored x nextPos pos =>
      rw [hpc] at hn
      cases hn
      simp only [hpc, Option.some.injEq, Prod.mk.injEq] at hs
      obtain ⟨rfl, rfl⟩ := hs
      exact ⟨by simp, Or.inr ⟨hdata pos (some x), rfl⟩⟩
  | publish x nextPos =>
      rw [hpc] at hn
      cases hn
      simp only [hpc, Option.some.injEq, Prod.mk.injEq] at hs
      obtain ⟨rfl, rfl⟩ := hs
      exact ⟨by simp, Or.inl { h.ring with writePos := (Nat.zero_mod _).symm }⟩

/-- The accesses of the reader do not depend on the writer. -/
theorem advanceReader_idle {s s' : State T} {o : Output T}
    (hs : s.advanceReader = some (o, s')) :
    ({ s with writer := .idle } : State T).advanceReader
      = some (o, { s' with writer := .idle }) ∧ s'.writer = s.writer := by
  unfold State.advanceReader at hs ⊢
  cases hpc : s.reader with
  | idle => simp [hpc] at hs
  | loadReadPos isPop | loadIndex isPop | fetching isPop pos | loadNext v | publish v pos =>
      simp only [hpc, Option.some.injEq, Prod.mk.injEq] at hs ⊢
      obtain ⟨rfl, rfl⟩ := hs
      exact ⟨⟨rfl, rfl⟩, rfl⟩
  | loadWritePos isPop readPos =>
      simp only [hpc] at hs ⊢
      split_ifs at hs ⊢ <;> cases hs <;> exact ⟨rfl, rfl⟩
  | fetched isPop pos =>
      simp only [hpc] at hs ⊢
      split_ifs at hs ⊢ <;> cases hs <;> exact ⟨rfl, rfl⟩

theorem Lost.step {dflt : T} {c : Nat} {s s' : State T} {a : Action T} {o : Output T}
    (h : Lost c s) (hs : (queue dflt c).step s a = some (o, s')) :
    (∀ v, o ≠ .popped v) ∧ (Ring c [] 0 s' ∨ Lost c s') := by
  cases a with
  | push x =>
      have hn := h.nextPos
      simp only [queue] at hs
      split at hs
      · rename_i hidle
        rw [hidle] at hn
        cases hn
      · cases hs
  | pop =>
      simp only [queue] at hs
      split at hs
      · cases hs
        exact ⟨by simp, Or.inr ⟨{ h.ring with reader := trivial }, h.nextPos⟩⟩
      · cases hs
  | getFront =>
      simp only [queue] at hs
      split at hs
      · cases hs
        exact ⟨by simp, Or.inr ⟨{ h.ring with reader := trivial }, h.nextPos⟩⟩
      · cases hs
  | writer => exact h.advanceWriter hs
  | reader =>
      obtain ⟨hidle, hwriter⟩ := advanceReader_idle hs
      have hn : s'.writer.nextPos = some 0 := hwriter ▸ h.nextPos
      rcases h.ring.advanceReader hidle with
        ⟨rfl, hr⟩ | ⟨rfl, -, hr⟩ | ⟨v, -, hv, -⟩ | ⟨v, -, hv, -⟩
      · exact ⟨by simp, Or.inr ⟨hr, hn⟩⟩
      · exact ⟨by simp, Or.inr ⟨hr, hn⟩⟩
      · exact absurd hv.lt (Nat.not_lt_zero 0)
      · exact absurd hv.lt (Nat.not_lt_zero 0)

/-! ## Runs -/

/-- The queue after `clear`: it holds the last of the values that were pushed since the call, in the
order in which they were pushed. -/
def Restarted (c : Nat) (tr : History T) (s : State T) : Prop :=
  ∃ ys, ys <:+ pushes tr ∧ pops tr = (ys.take (pops tr).length).map some ∧
    (Ring c ys (pops tr).length s ∨ ys = [] ∧ pops tr = [] ∧ Lost c s)

theorem pushesStep_suffix {xs ys : List T} (h : ys <:+ xs) (e : Action T × Output T) :
    pushesStep ys e <:+ pushesStep xs e := by
  obtain ⟨a, o⟩ := e
  cases o with
  | pushed x =>
      obtain ⟨zs, rfl⟩ := h
      exact ⟨zs, (List.append_assoc _ _ _).symm⟩
  | running | full | popped | front | empty => exact h

theorem pops_snoc_of_ne {tr : History T} {a : Action T} {o : Output T} (h : ∀ v, o ≠ .popped v) :
    pops (tr ++ [(a, o)]) = pops tr := by
  rw [pops_snoc]
  cases o with
  | popped v => exact absurd rfl (h v)
  | running | pushed | full | front | empty => rfl

theorem restarted_nil {c : Nat} {tr : History T} {s : State T} (hp : pops tr = [])
    (h : Ring c [] 0 s ∨ Lost c s) : Restarted c tr s := by
  refine ⟨[], List.nil_suffix, by rw [hp]; rfl, ?_⟩
  rcases h with hring | hlost
  · exact Or.inl (by rwa [hp])
  · exact Or.inr ⟨rfl, hp, hlost⟩

theorem Restarted.step {dflt : T} {c : Nat} {tr : History T} {s s' : State T} {a : Action T}
    {o : Output T} (h : Restarted c tr s) (hs : (queue dflt c).step s a = some (o, s')) :
    Restarted c (tr ++ [(a, o)]) s' := by
  obtain ⟨ys, hsuffix, hpops, hring | ⟨-, hp, hlost⟩⟩ := h
  · obtain ⟨hring', hfront⟩ := hring.step hs
    refine ⟨pushesStep ys (a, o), ?_, ?_, ?_⟩
    · rw [pushes_snoc]
      exact pushesStep_suffix hsuffix _
    · rw [pops_snoc]
      exact popped_step hpops hring.le fun v hv => hfront v (Or.inl hv)
    · rw [pops_snoc]
      exact Or.inl hring'
  · obtain ⟨ho, hnext⟩ := hlost.step hs
    refine restarted_nil ?_ hnext
    rw [pops_snoc_of_ne ho, hp]

/-- The state of the queue at each point of `clear`. -/
def ClearInv (c : Nat) (tr : History T) (s : Clearing T) : Prop :=
  match s.pc with
  | .storeReadPos => Before c s.queue ∧ pops tr = []
  | .storeWritePos => Before c s.queue ∧ s.queue.readPos = 0 ∧ pops tr = []
  | .done => Restarted c tr s.queue

/-- Until `clear` has stored both positions, all steps but its own are those of the writer. -/
theorem clearing_cases {dflt : T} {c : Nat} {s0 q : State T} {pc : ClearPc} {s' : Clearing T}
    {a : Action T} {o : Output T} (hpc : pc ≠ .done)
    (hs : (clearing dflt c s0).step ⟨q, pc⟩ a = some (o, s')) :
    a = .reader ∨ ∃ q', (a = .writer ∨ ∃ x, a = .push x) ∧
      (queue dflt c).step q a = some (o, q') ∧ s' = ⟨q', pc⟩ := by
  have hwriter : ((queue dflt c).step q a).map (fun r => (r.1, (⟨r.2, pc⟩ : Clearing T)))
      = some (o, s') → ∃ q', (queue dflt c).step q a = some (o, q') ∧ s' = ⟨q', pc⟩ := by
    intro hs
    obtain ⟨r, hr, heq⟩ := Option.map_eq_some_iff.mp hs
    cases heq
    exact ⟨r.2, hr, rfl⟩
  cases a with
  | reader => exact Or.inl rfl
  | writer =>
      obtain ⟨q', hq⟩ := hwriter (by cases pc <;> exact hs)
      exact Or.inr ⟨q', Or.inl rfl, hq⟩
  | push x =>
      obtain ⟨q', hq⟩ := hwriter (by cases pc <;> exact hs)
      exact Or.inr ⟨q', Or.inr ⟨x, rfl⟩, hq⟩
  | pop | getFront =>
      cases pc with
      | storeReadPos | storeWritePos => cases hs
      | done => exact absurd rfl hpc

theorem clearInv_step {dflt : T} {c : Nat} {s0 : State T} {tr : History T} {s s' : Clearing T}
    {a : Action T} {o : Output T} (h : ClearInv c tr s) (hg : Settled s a)
    (hs : (clearing dflt c s0).step s a = some (o, s')) : ClearInv c (tr ++ [(a, o)]) s' := by
  obtain ⟨q, pc⟩ := s
  cases pc with
  | storeReadPos =>
      obtain ⟨hbefore, hp⟩ := h
      rcases clearing_cases (by simp) hs with rfl | ⟨q', ha, hq, rfl⟩
      · cases hs
        exact ⟨{ hbefore with }, rfl, (pops_snoc_of_ne (by simp)).trans hp⟩
      · obtain ⟨hnext, -, ho⟩ := hbefore.step ha hq
        exact ⟨hnext, (pops_snoc_of_ne ho).trans hp⟩
  | storeWritePos =>
      obtain ⟨hbefore, hr0, hp⟩ := h
      rcases clearing_cases (by simp) hs with rfl | ⟨q', ha, hq, rfl⟩
      · cases hs
        refine restarted_nil ((pops_snoc_of_ne (by simp)).trans hp) ?_
        exact hbefore.settle hr0 (hg rfl)
      · obtain ⟨hnext, hread, ho⟩ := hbefore.step ha hq
        exact ⟨hnext, hread.trans hr0, (pops_snoc_of_ne ho).trans hp⟩
  | done =>
      have hs' : ((queue dflt c).step q a).map (fun r => (r.1, (⟨r.2, .done⟩ : Clearing T)))
          = some (o, s') := by
        cases a <;> exact hs
      obtain ⟨r, hr, heq⟩ := Option.map_eq_some_iff.mp hs'
      cases heq
      exact Restarted.step h hr

theorem Restarted.readable {c : Nat} {tr : History T} {s : State T} (h : Restarted c tr s) :
    ∃ ys, ys <:+ pushes tr ∧ pops tr ++ s.unread = ys.map some := by
  obtain ⟨ys, hsuffix, hpops, hring | ⟨rfl, hp, hlost⟩⟩ := h
  · refine ⟨ys, hsuffix, ?_⟩
    have hjoin : (ys.take (pops tr).length).map some ++ (ys.drop (pops tr).length).map some
        = ys.map some := by
      rw [← List.map_append, List.take_append_drop]
    rwa [← hpops, ← hring.unread] at hjoin
  · refine ⟨[], List.nil_suffix, ?_⟩
    have hunread : s.unread = _ := hlost.ring.unread
    rw [hp, hunread]
    rfl

/-- **`clear` against a concurrent writer.** From every state of the queue in which the reader is
idle, and in every interleaving of `clear` with the accesses of the writer: if the writer is not
going to store a position above 1 when `clear` stores `_writePos`, then in every state after `clear`
the values that were popped since then and those that are unread are the last of the values pushed
since the call, in this order. -/
theorem clear_suffix {dflt : T} {c : Nat} {pre : History T} {s0 : State T}
    (h0 : (queue dflt c).Trace pre s0) (hidle : s0.reader = .idle) {tr : History T}
    {s : Clearing T} (h : (clearing dflt c s0).Trace tr s)
    (hg : (clearing dflt c s0).Guarded Settled tr) (hdone : s.pc = .done) :
    ∃ ys, ys <:+ pushes tr ∧ pops tr ++ s.queue.unread = ys.map some := by
  have hstart : ClearInv c [] (clearing dflt c s0).init :=
    ⟨(inv_of_trace h0).ring.before hidle, rfl⟩
  have hinv := h.guardedInv (ClearInv c) hstart
    (fun _ _ _ _ _ hi hset hs => clearInv_step hi hset hs) hg
  unfold ClearInv at hinv
  rw [hdone] at hinv
  exact hinv.readable

/-- A call of `push` and its six accesses. -/
def pushCall (x : Nat) : List (Action Nat) :=
  [.push x, .writer, .writer, .writer, .writer, .writer, .writer]

/-- A queue with `7`; the writer pushes `8` between the two stores of `clear`, and `9` later. -/
theorem clear_between_pushes :
    ∃ pre s0 tr s, (queue 0 3).Trace pre s0 ∧ pre.map Prod.fst = pushCall 7 ∧
      (clearing 0 3 s0).Trace tr s ∧
      tr.map Prod.fst = [.reader] ++ pushCall 8 ++ [.reader] ++ pushCall 9 ∧
      (clearing 0 3 s0).Guarded Settled tr ∧
      (∃ ys, ys <:+ pushes tr ∧ pops tr ++ s.queue.unread = ys.map some) ∧
      pushes tr = [8, 9] ∧ s.queue.unread = [some 9] := by
  have h0 := Machine.Trace.of_run (M := queue 0 3) (pushCall 7) rfl
  have h := Machine.Trace.of_run (M := clearing 0 3 ⟨[some 7, some 0, some 0, some 0], 0, 1, .idle,
    .idle⟩) ([.reader] ++ pushCall 8 ++ [.reader] ++ pushCall 9) rfl
  have hg := Machine.guarded_of_run (G := Settled) (M := clearing 0 3 ⟨[some 7, some 0, some 0,
    some 0], 0, 1, .idle, .idle⟩) ([.reader] ++ pushCall 8 ++ [.reader] ++ pushCall 9) rfl
    (by decide)
  exact ⟨_, _, _, _, h0, rfl, h, rfl, hg, clear_suffix h0 rfl h hg rfl, rfl, rfl⟩

/-- The values `1` and `2` are in the queue, and the writer has loaded `_writePos` to push `9` when
`clear` stores it. The push ends the queue behind the third cell: the old `2` is readable again, and
a cell that was never pushed. -/
theorem clear_reveals_old_values :
    ∃ pre s0 tr s, (queue 0 3).Trace pre s0 ∧ pre.map Prod.fst = pushCall 1 ++ pushCall 2 ∧
      s0.reader = .idle ∧ (clearing 0 3 s0).Trace tr s ∧
      tr.map Prod.fst = [.push 9, .writer, .reader, .reader, .writer, .writer, .writer, .writer,
        .writer] ∧
      s.pc = .done ∧ pushes tr = [9] ∧ s.queue.unread = [some 9, some 2, some 0] := by
  have h0 := Machine.Trace.of_run (M := queue 0 3) (pushCall 1 ++ pushCall 2) rfl
  have h := Machine.Trace.of_run (M := clearing 0 3 ⟨[some 1, some 2, some 0, some 0], 0, 2, .idle,
    .idle⟩) [.push 9, .writer, .reader, .reader, .writer, .writer, .writer, .writer, .writer] rfl
  exact ⟨_, _, _, _, h0, rfl, rfl, h, rfl, rfl, rfl, rfl⟩

end Lunchbox.LFQueue
