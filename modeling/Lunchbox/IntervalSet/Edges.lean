import Lunchbox.IntervalSet.Model

set_option autoImplicit false

/-! # The edges of an interval set

Well-formed sequences of edges (`WellFormed`): starts and ends alternate, an interval is not
empty and neighbouring intervals do not touch. On such a sequence `insert` and `erase` replace
the edges between their arguments and adjust the two sides: `insert_intervals` and
`erase_intervals` give the result in terms of the edges before the start (`openLeft`,
`closeLeft`) and after the end (`closeRight`, `openRight`).
-/

namespace Lunchbox.IntervalSet

/-! ## Well-formed sequences -/

/-- The edge `e'` may come right after `e`. -/
def Follows (e e' : Edge) : Prop :=
  if e.second then e'.second = false ∧ e.first ≤ e'.first
  else e'.second = true ∧ e.first + 2 ≤ e'.first

structure WellFormed (l : List Edge) : Prop where
  chain : l.IsChain Follows
  head : ∀ e ∈ l.head?, e.second = true
  last : ∀ e ∈ l.getLast?, e.second = false

theorem follows_start {a : Nat} {e : Edge} :
    Follows ⟨a, true⟩ e ↔ e.second = false ∧ a ≤ e.first := by
  simp [Follows]

theorem follows_end {a : Nat} {e : Edge} :
    Follows ⟨a, false⟩ e ↔ e.second = true ∧ a + 2 ≤ e.first := by
  simp [Follows]

theorem Follows.le {e e' : Edge} (h : Follows e e') : e.first ≤ e'.first := by
  unfold Follows at h
  split at h <;> omega

theorem Follows.alternate {e e' : Edge} (h : Follows e e') : e'.second = !e.second := by
  obtain ⟨a, b⟩ := e
  cases b with
  | true => exact (follows_start.mp h).1
  | false => exact (follows_end.mp h).1

theorem sorted_of_chain {l : List Edge} (h : l.IsChain Follows) :
    l.Pairwise fun e e' => e.first ≤ e'.first := by
  have : IsTrans Edge fun e e' => e.first ≤ e'.first := ⟨fun _ _ _ => le_trans⟩
  exact List.isChain_iff_pairwise.mp (h.imp fun _ _ h => h.le)

/-- The flag of the last edge: whether the next element is inside an interval. -/
def lastFlag (b : Bool) (l : List Edge) : Bool := l.foldl (fun _ e => e.second) b

@[simp] theorem lastFlag_nil (b : Bool) : lastFlag b [] = b := rfl

@[simp] theorem lastFlag_cons (b : Bool) (e : Edge) (l : List Edge) :
    lastFlag b (e :: l) = lastFlag e.second l := rfl

theorem lastFlag_append (b : Bool) (l l' : List Edge) :
    lastFlag b (l ++ l') = lastFlag (lastFlag b l) l' := by
  simp [lastFlag]

/-- The next edge after a part of a well-formed sequence changes the flag. -/
theorem WellFormed.head_flag {xs ys : List Edge} (h : WellFormed (xs ++ ys)) {v : Edge}
    (hv : v ∈ ys.head?) : v.second = !lastFlag false xs := by
  rcases List.eq_nil_or_concat' xs with rfl | ⟨q, u, rfl⟩
  · exact h.head v hv
  · have hu := (List.isChain_append.mp h.chain).2.2 u (by simp) v hv
    rw [hu.alternate, lastFlag_append]
    rfl

/-- A well-formed sequence does not end inside an interval. -/
theorem WellFormed.ne_nil_of_inside {xs ys : List Edge} (h : WellFormed (xs ++ ys))
    (hb : lastFlag false xs = true) : ys ≠ [] := by
  rintro rfl
  rw [List.append_nil] at h
  rcases List.eq_nil_or_concat' xs with rfl | ⟨q, u, rfl⟩
  · cases hb
  · have hu := h.last u (by simp)
    rw [lastFlag_append] at hb
    rw [show u.second = true from hb] at hu
    cases hu

/-- **Induction over the intervals.** Well-formed edges are none, or the bounds of an interval and
well-formed edges that come at least two after it. -/
@[elab_as_elim]
theorem WellFormed.intervals_induction {P : List Edge → Prop} (nil : P [])
    (cons : ∀ a c l, a ≤ c → WellFormed l → (∀ v ∈ l, c + 2 ≤ v.first) → P l →
      P (⟨a, true⟩ :: ⟨c, false⟩ :: l)) :
    ∀ {l : List Edge}, WellFormed l → P l
  | [], _ => nil
  | [u], h => by
      have h1 := h.head u rfl
      have h2 := h.last u rfl
      rw [h1] at h2
      cases h2
  | ⟨a, b⟩ :: ⟨c, d⟩ :: l, h => by
      -- the first two edges are the start and the end of an interval
      obtain ⟨huv, hvl⟩ := List.isChain_cons_cons.mp h.chain
      have hb : b = true := h.head ⟨a, b⟩ rfl
      subst hb
      obtain ⟨hd, hac⟩ := follows_start.mp huv
      simp only at hd hac
      subst hd
      obtain ⟨hhead, hchain⟩ := List.isChain_cons.mp hvl
      have hwf : WellFormed l := by
        refine ⟨hchain, fun y hy => (follows_end.mp (hhead y hy)).1, fun y hy => h.last y ?_⟩
        show y ∈ ([⟨a, true⟩, ⟨c, false⟩] ++ l : List Edge).getLast?
        exact List.mem_getLast?_append_of_mem_getLast? hy
      refine cons a c l hac hwf ?_ (intervals_induction nil cons hwf)
      cases l with
      | nil => simp
      | cons y l =>
          have hy := (follows_end.mp (hhead y rfl)).2
          have hsorted := List.pairwise_cons.mp (sorted_of_chain hchain)
          exact List.forall_mem_cons.mpr ⟨hy, fun v hv => le_trans hy (hsorted.1 v hv)⟩

/-- The edges before `s`, from `s` to `e`, and after `e`. -/
structure Split (l : List Edge) (s e : Nat) (pre mid rest : List Edge) : Prop where
  eq : l = pre ++ (mid ++ rest)
  before : ∀ x ∈ pre, x.first < s
  between : ∀ x ∈ mid, s ≤ x.first ∧ x.first ≤ e
  after : ∀ x ∈ rest, e < x.first

theorem exists_split {l : List Edge} (h : WellFormed l) (s e : Nat) :
    ∃ pre mid rest, Split l s e pre mid rest := by
  have hcut : ∀ {l' : List Edge} (n : Nat), (l'.Pairwise fun x y => x.first ≤ y.first) →
      l'.Pairwise fun x y => y.first < n → x.first < n :=
    fun n h => h.imp fun hxy hy => lt_of_le_of_lt hxy hy
  have hsorted := sorted_of_chain h.chain
  obtain ⟨pre, suf, rfl, hp, hsuf⟩ := OrderedList.exists_cut (hcut s hsorted)
  obtain ⟨mid, rest, rfl, hm, hr⟩ :=
    OrderedList.exists_cut (hcut (e + 1) (List.pairwise_append.mp hsorted).2.1)
  refine ⟨pre, mid, rest, rfl, hp, fun x hx => ⟨?_, ?_⟩, fun x hx => ?_⟩
  · exact Nat.le_of_not_lt (hsuf x (List.mem_append_left rest hx))
  · exact Nat.le_of_lt_succ (hm x hx)
  · exact Nat.lt_of_succ_le (Nat.le_of_not_lt (hr x hx))

theorem Split.suffix_ge {l pre mid rest : List Edge} {s e : Nat} (h : Split l s e pre mid rest)
    (hse : s ≤ e) : ∀ x ∈ mid ++ rest, s ≤ x.first := by
  intro x hx
  rcases List.mem_append.mp hx with hx | hx
  · exact (h.between x hx).1
  · exact le_trans hse (Nat.le_of_lt (h.after x hx))

/-! ## The comparison -/

theorem edgeCompare_of_lt {e e' : Edge} (h : e.first < e'.first) : edgeCompare e e' = true := by
  simp [edgeCompare, h]

theorem edgeCompare_of_gt {e e' : Edge} (h : e'.first < e.first) : edgeCompare e e' = false := by
  simp [edgeCompare, Nat.not_lt.mpr (Nat.le_of_lt h), Nat.ne_of_gt h]

theorem not_edgeCompare_start {e : Edge} {a : Nat} (h : a ≤ e.first) :
    edgeCompare e ⟨a, true⟩ = false := by
  simp [edgeCompare, Nat.not_lt.mpr h]

theorem edgeCompare_end {e : Edge} {a : Nat} :
    edgeCompare e ⟨a, false⟩ = true ↔ e.first < a ∨ e.first = a ∧ e.second = true := by
  unfold edgeCompare
  by_cases h : e.first < a
  · simp [h]
  · simp [h]

/-! ## Arithmetic without wrapping -/

variable {A : Arith}

theorem Arith.Holds.of_le {x y : Nat} (h : A.Holds y) (hxy : x ≤ y) : A.Holds x := by
  rcases h with h | h
  · exact Or.inl h
  · exact Or.inr (lt_of_le_of_lt hxy h)

theorem Arith.Holds.expr {x : Nat} (h : A.Holds x) : A.expr x = x := by
  unfold Arith.expr
  rcases A.promoted_eq with hp | hp
  · simp [hp]
  · rcases h with h | h
    · simp [hp, h]
    · rw [hp]
      exact Int.emod_eq_of_lt (by omega) (by omega)

theorem Arith.Holds.toElem {x : Nat} (h : A.Holds x) : A.toElem x = x := by
  unfold Arith.toElem
  rcases h with h | h
  · simp [h]
  · rw [Int.emod_eq_of_lt (by omega) (by omega)]
    simp

/-! ## The loop -/

theorem sweep_split {endElement : Nat} {mid rest : List Edge} (w : Sweep)
    (hm : ∀ e ∈ mid, e.first ≤ endElement) (hr : ∀ e ∈ rest, endElement < e.first) :
    (sweep A endElement w (mid ++ rest)).2 = rest ∧
      (sweep A endElement w (mid ++ rest)).1.inside = lastFlag w.inside mid := by
  induction mid generalizing w with
  | nil =>
      cases rest with
      | nil => exact ⟨rfl, rfl⟩
      | cons e rest =>
          have he : ¬ e.first ≤ endElement := Nat.not_le.mpr (hr e List.mem_cons_self)
          simp [sweep, he]
  | cons e mid ih =>
      have he : e.first ≤ endElement := hm e List.mem_cons_self
      rw [List.cons_append, sweep, if_pos he]
      exact ih _ fun e he => hm e (List.mem_cons_of_mem _ he)

/-! ## Adding an interval -/

/-- The edges before an inserted interval, up to its start. -/
def openLeft (startElement : Nat) (pre : List Edge) : List Edge :=
  match pre.getLast? with
  | none => [⟨startElement, true⟩]
  | some v =>
      if v.second then pre
      else if v.first + 1 = startElement then pre.dropLast
      else pre ++ [⟨startElement, true⟩]

/-- The edges after an inserted interval, from its end on. -/
def closeRight (endElement : Nat) (inside : Bool) (rest : List Edge) : List Edge :=
  if ∃ v ∈ rest.head?, v = ⟨endElement + 1, true⟩ then rest.tail
  else if inside then rest
  else ⟨endElement, false⟩ :: rest

theorem closeRight_touching (e : Nat) (b : Bool) (r : List Edge) :
    closeRight e b (⟨e + 1, true⟩ :: r) = r := by
  simp [closeRight]

theorem closeRight_apart {e : Nat} {rest : List Edge}
    (h : ∀ v ∈ rest.head?, v ≠ ⟨e + 1, true⟩) (b : Bool) :
    closeRight e b rest = if b then rest else ⟨e, false⟩ :: rest := by
  have hno : ¬ ∃ v ∈ rest.head?, v = ⟨e + 1, true⟩ := by
    rintro ⟨v, hv, he⟩
    exact h v hv he
  rw [closeRight, if_neg hno]

theorem openLeft_nil (s : Nat) : openLeft s [] = [⟨s, true⟩] := rfl

theorem openLeft_start (s v : Nat) (q : List Edge) :
    openLeft s (q ++ [⟨v, true⟩]) = q ++ [⟨v, true⟩] := by
  simp [openLeft]

theorem openLeft_touching (v : Nat) (q : List Edge) :
    openLeft (v + 1) (q ++ [⟨v, false⟩]) = q := by
  simp [openLeft]

theorem openLeft_apart {s v : Nat} (h : v + 1 ≠ s) (q : List Edge) :
    openLeft s (q ++ [⟨v, false⟩]) = q ++ [⟨v, false⟩] ++ [⟨s, true⟩] := by
  simp [openLeft, h]

theorem lowerBound_start {s : Nat} {pre suf : List Edge} (hp : ∀ x ∈ pre, x.first < s)
    (hs : ∀ x ∈ suf, s ≤ x.first) :
    OrderedList.lowerBound edgeCompare (pre ++ suf) ⟨s, true⟩ = pre.length := by
  apply OrderedList.lowerBound_split
  · intro x hx
    exact edgeCompare_of_lt (hp x hx)
  · intro x hx
    exact not_edgeCompare_start (hs x (List.mem_of_mem_head? hx))

/-- Where `addStart` looks: the edge before the start, or the start itself. -/
theorem previousToStart_snoc {s : Nat} {q suf : List Edge} {v : Edge}
    (hq : ∀ e ∈ q ++ [v], e.first < s) (hs : ∀ e ∈ suf, s ≤ e.first) :
    previousToStart (q ++ [v] ++ suf) s = q.length := by
  unfold previousToStart
  rw [lowerBound_start hq hs]
  cases suf with
  | nil => simp
  | cons e suf => simp

theorem previousToStart_head {s : Nat} {e : Edge} (hs : s ≤ e.first) (suf : List Edge) :
    previousToStart (e :: suf) s = if s < e.first then suf.length + 1 else 0 := by
  have hlb : OrderedList.lowerBound edgeCompare ([] ++ e :: suf) ⟨s, true⟩ = 0 := by
    apply OrderedList.lowerBound_split
    · simp
    · intro x hx
      cases hx
      exact not_edgeCompare_start hs
  rw [List.nil_append] at hlb
  simp [previousToStart, hlb]

/-! `addStart`, by what it finds. -/

theorem addStart_none {l l' : List Edge} {s p i : Nat} (hp : previousToStart l s = p)
    (hget : l[p]? = none) (hi : OrderedList.insert edgeCompare l ⟨s, true⟩ = (l', i)) :
    addStart A l s = (l', i, ⟨false, 0, 0⟩) := by
  simp [addStart, hp, hget, hi]

theorem addStart_inside {l : List Edge} {s p a : Nat} (hp : previousToStart l s = p)
    (hget : l[p]? = some ⟨a, true⟩) : addStart A l s = (l, p, ⟨true, s, 0⟩) := by
  simp [addStart, hp, hget]

theorem addStart_touching {l : List Edge} {s p a : Nat} (hp : previousToStart l s = p)
    (hget : l[p]? = some ⟨a, false⟩) (ha : A.expr ((a : Int) + 1) = s) :
    addStart A l s = (l.eraseIdx p, p - 1, ⟨false, 0, 0⟩) := by
  simp [addStart, hp, hget, ha]

theorem addStart_apart {l l' : List Edge} {s p a i : Nat} (hp : previousToStart l s = p)
    (hget : l[p]? = some ⟨a, false⟩) (ha : A.expr ((a : Int) + 1) ≠ s)
    (hi : OrderedList.insertHint edgeCompare l p ⟨s, true⟩ = (l', i)) :
    addStart A l s = (l', i, ⟨false, 0, 0⟩) := by
  simp [addStart, hp, hget, ha, hi]

/-- The local variables before the loop: nothing is counted yet, and inside an interval the
counting begins at the start. -/
def Sweep.Fresh (s : Nat) (w : Sweep) : Prop :=
  w.overlappingPortion = 0 ∧ (w.inside = true → w.overlappingStart = s)

/-- The edges `mid'` that the loop of `insert` removes: those between the start and the end,
without an edge that is the new start itself. -/
def Entered (s : Nat) (pre mid mid' : List Edge) (w : Sweep) : Prop :=
  mid' = mid ∧ w.inside = lastFlag false pre ∨
    pre = [] ∧ mid = ⟨s, true⟩ :: mid' ∧ w.inside = true

theorem Entered.flag {s : Nat} {pre mid mid' : List Edge} {w : Sweep}
    (h : Entered s pre mid mid' w) : lastFlag w.inside mid' = lastFlag false (pre ++ mid) := by
  rcases h with ⟨rfl, hw⟩ | ⟨rfl, rfl, hw⟩
  · rw [hw, lastFlag_append]
  · rw [hw]
    rfl

theorem Entered.mem {s : Nat} {pre mid mid' : List Edge} {w : Sweep}
    (h : Entered s pre mid mid' w) {x : Edge} (hx : x ∈ mid') : x ∈ mid := by
  rcases h with ⟨rfl, -⟩ | ⟨-, rfl, -⟩
  · exact hx
  · exact List.mem_cons_of_mem _ hx

/-- `addStart` on a sequence that begins at or after the start. -/
theorem addStart_head {s e : Nat} {mid rest : List Edge} (hwf : WellFormed (mid ++ rest))
    (hne : mid ++ rest ≠ []) (h : Split (mid ++ rest) s e [] mid rest) (hse : s ≤ e) :
    ∃ mid' w, addStart A (mid ++ rest) s = (⟨s, true⟩ :: (mid' ++ rest), 0, w) ∧
      Entered s [] mid mid' w ∧ w.Fresh s := by
  have hge := h.suffix_ge hse
  cases hl : mid ++ rest with
  | nil => exact absurd hl hne
  | cons v suf =>
      have hv : s ≤ v.first := hge v (by rw [hl]; exact List.mem_cons_self)
      have hprev := previousToStart_head hv suf
      by_cases hlt : s < v.first
      · -- no edge at the start: insert it in front
        rw [if_pos hlt] at hprev
        have hins : OrderedList.insert edgeCompare ([] ++ v :: suf) ⟨s, true⟩
            = ([] ++ ⟨s, true⟩ :: v :: suf, 0) := by
          apply OrderedList.insert_split
          · intro x hx
            cases hx
          · intro x hx
            cases hx
            exact edgeCompare_of_lt hlt
        refine ⟨mid, ⟨false, 0, 0⟩, ?_, Or.inl ⟨rfl, rfl⟩, rfl, by simp⟩
        rw [hl]
        exact addStart_none hprev (by simp) hins
      · -- the start edge is there already
        rw [if_neg hlt] at hprev
        have hhead : v.second = true := hwf.head v (by rw [hl]; rfl)
        have hveq : v = ⟨s, true⟩ := by
          rw [← hhead, ← le_antisymm (Nat.le_of_not_lt hlt) hv]
        cases mid with
        | nil =>
            have hve := h.after v (by rw [← List.nil_append rest, hl]; exact List.mem_cons_self)
            omega
        | cons x mid' =>
            rw [List.cons_append, List.cons.injEq] at hl
            obtain ⟨rfl, rfl⟩ := hl
            subst hveq
            exact ⟨mid', ⟨true, s, 0⟩, addStart_inside hprev rfl, Or.inr ⟨rfl, rfl, rfl⟩, rfl,
              fun _ => rfl⟩

/-- `addStart` on a sequence with an edge before the start. -/
theorem addStart_snoc {s : Nat} {q suf : List Edge} {v : Edge}
    (hwf : WellFormed (q ++ [v] ++ suf)) (hs : A.Holds s)
    (hq : ∀ x ∈ q ++ [v], x.first < s) (hsuf : ∀ x ∈ suf, s ≤ x.first) :
    ∃ w k, addStart A (q ++ [v] ++ suf) s = (openLeft s (q ++ [v]) ++ suf, k, w) ∧
      k + 1 = (openLeft s (q ++ [v])).length ∧ w.inside = v.second ∧ w.Fresh s := by
  have hprev := previousToStart_snoc hq hsuf
  have hget : (q ++ [v] ++ suf)[q.length]? = some v := by simp
  have hv : v.first < s := hq v (by simp)
  obtain ⟨a, b⟩ := v
  cases b with
  | true =>
      rw [openLeft_start]
      exact ⟨⟨true, s, 0⟩, q.length, addStart_inside hprev hget, by simp, rfl, rfl, fun _ => rfl⟩
  | false =>
      have hexpr : A.expr ((a : Int) + 1) = ((a + 1 : Nat) : Int) :=
        (hs.of_le hv : A.Holds (a + 1)).expr
      by_cases ha : a + 1 = s
      · -- touching the previous interval: its end is removed
        have hq0 : q ≠ [] := by
          rintro rfl
          have := hwf.head ⟨a, false⟩ rfl
          cases this
        have hlen := List.length_pos_of_ne_nil hq0
        have herase : (q ++ [(⟨a, false⟩ : Edge)] ++ suf).eraseIdx q.length = q ++ suf := by
          rw [List.append_assoc, OrderedList.eraseIdx_split]
          rfl
        have hadd := addStart_touching hprev hget (by rw [hexpr, ha])
        rw [herase] at hadd
        refine ⟨⟨false, 0, 0⟩, q.length - 1, ?_, ?_, rfl, rfl, by simp⟩
        · rw [hadd, ← ha, openLeft_touching]
        · rw [← ha, openLeft_touching]
          omega
      · have hins : OrderedList.insertHint edgeCompare (q ++ [⟨a, false⟩] ++ suf) q.length ⟨s, true⟩
            = (q ++ [⟨a, false⟩] ++ ⟨s, true⟩ :: suf, (q ++ [(⟨a, false⟩ : Edge)]).length) := by
          apply OrderedList.insertHint_split
          · intro x hx
            exact edgeCompare_of_lt (hq x hx)
          · intro x hx
            exact not_edgeCompare_start (hsuf x (List.mem_of_mem_head? hx))
          · simp
        have hne : A.expr ((a : Int) + 1) ≠ s := by
          rw [hexpr]
          exact fun h => ha (Int.ofNat.inj h)
        refine ⟨⟨false, 0, 0⟩, (q ++ [(⟨a, false⟩ : Edge)]).length, ?_, ?_, rfl, rfl, by simp⟩
        · rw [addStart_apart hprev hget hne hins, openLeft_apart ha]
          simp
        · simp [openLeft_apart ha]

/-- Adding the start leaves the edges after it, up to the end of the new interval, to be
removed. -/
theorem addStart_spec {l pre mid rest : List Edge} {s e : Nat} (h : Split l s e pre mid rest)
    (hwf : WellFormed l) (hne : l ≠ []) (hs : A.Holds s) (hse : s ≤ e) :
    ∃ mid' w k, addStart A l s = (openLeft s pre ++ (mid' ++ rest), k, w) ∧
      k + 1 = (openLeft s pre).length ∧ Entered s pre mid mid' w ∧ w.Fresh s := by
  have hl := h.eq
  subst hl
  rcases List.eq_nil_or_concat' pre with rfl | ⟨q, v, rfl⟩
  · rw [List.nil_append] at h hwf hne ⊢
    obtain ⟨mid', w, hadd, hent, hfresh⟩ := addStart_head (A := A) hwf hne h hse
    exact ⟨mid', w, 0, hadd, rfl, hent, hfresh⟩
  · obtain ⟨w, k, hadd, hk, hflag, hfresh⟩ := addStart_snoc hwf hs h.before (h.suffix_ge hse)
    refine ⟨mid, w, k, hadd, hk, Or.inl ⟨rfl, ?_⟩, hfresh⟩
    rw [lastFlag_append, hflag]
    rfl

/-- The overlap once the end is reached: an interval that is still open there counts up to it. -/
def Sweep.total (A : Arith) (endElement : Nat) (w : Sweep) : Nat :=
  if w.inside then w.add A endElement else w.overlappingPortion

/-! `addEnd`, by what it finds. -/

theorem addEnd_touching {l : List Edge} {p e : Nat} {w : Sweep} {v : Edge} (hget : l[p]? = some v)
    (hv : v.second = true ∧ (v.first : Int) = A.expr ((e : Int) + 1)) :
    addEnd A l p e w = (l.eraseIdx p, w.overlappingPortion) := by
  simp [addEnd, hget, hv]

theorem addEnd_apart {l : List Edge} {p e : Nat} {w : Sweep}
    (hv : ∀ v ∈ l[p]?, ¬ (v.second = true ∧ (v.first : Int) = A.expr ((e : Int) + 1))) :
    addEnd A l p e w
      = (if w.inside then l else (OrderedList.insertHint edgeCompare l p ⟨e, false⟩).1,
          w.total A e) := by
  unfold addEnd Sweep.total
  cases hget : l[p]? with
  | none => cases hw : w.inside <;> simp
  | some v =>
      have := hv v hget
      cases hw : w.inside <;> simp [this]

/-- `addEnd` at a position with no edge up to the end after it. -/
theorem addEnd_split {e : Nat} {xs rest : List Edge} {w : Sweep}
    (hx : ∀ x ∈ xs, edgeCompare x ⟨e, false⟩ = true) (hr : ∀ x ∈ rest, e < x.first)
    (hh : ∀ x ∈ rest, A.Holds x.first) (hflag : ∀ x ∈ rest.head?, x.second = !w.inside) :
    addEnd A (xs ++ rest) xs.length e w = (xs ++ closeRight e w.inside rest, w.total A e) := by
  have hget := OrderedList.getElem?_split xs rest
  -- the next edge is within the type, so `endElement + 1` does not wrap
  have hexpr : ∀ v ∈ rest.head?, A.expr ((e : Int) + 1) = ((e + 1 : Nat) : Int) := by
    intro v hv
    have hmem := List.mem_of_mem_head? hv
    exact ((hh v hmem).of_le (hr v hmem) : A.Holds (e + 1)).expr
  by_cases hfuse : ∃ v ∈ rest.head?, v = ⟨e + 1, true⟩
  · obtain ⟨v, hv, rfl⟩ := hfuse
    have hin : w.inside = false := by
      have := hflag _ hv
      rwa [eq_comm, Bool.not_eq_true'] at this
    obtain ⟨r, rfl⟩ : ∃ r, rest = ⟨e + 1, true⟩ :: r := List.head?_eq_some_iff.mp hv
    rw [addEnd_touching hget ⟨rfl, (hexpr _ hv).symm⟩, OrderedList.eraseIdx_split,
      closeRight_touching, Sweep.total, hin]
    rfl
  · have hno : ∀ v ∈ rest.head?, v ≠ ⟨e + 1, true⟩ := fun v hv he => hfuse ⟨v, hv, he⟩
    have hins : OrderedList.insertHint edgeCompare (xs ++ rest) xs.length ⟨e, false⟩
        = (xs ++ ⟨e, false⟩ :: rest, xs.length) := by
      apply OrderedList.insertHint_split hx
      · intro x hx
        exact edgeCompare_of_gt (hr x (List.mem_of_mem_head? hx))
      · exact le_refl _
    rw [addEnd_apart, hins, closeRight_apart hno]
    · cases w.inside <;> rfl
    · intro v hv
      rw [hget] at hv
      rw [hexpr v hv]
      rintro ⟨h1, h2⟩
      apply hno v hv
      rw [← h1, ← Int.ofNat.inj h2]

theorem mem_openLeft {s : Nat} {pre : List Edge} {x : Edge} (hx : x ∈ openLeft s pre) :
    x ∈ pre ∨ x = ⟨s, true⟩ := by
  unfold openLeft at hx
  split at hx
  · exact Or.inr (List.mem_singleton.mp hx)
  · split_ifs at hx
    · exact Or.inl hx
    · exact Or.inl (List.mem_of_mem_dropLast hx)
    · rwa [List.mem_append, List.mem_singleton] at hx

/-- The edges up to an inserted start are before its end. -/
theorem openLeft_before_end {l pre mid rest : List Edge} {s e : Nat}
    (h : Split l s e pre mid rest) (hse : s ≤ e) :
    ∀ x ∈ openLeft s pre, edgeCompare x ⟨e, false⟩ = true := by
  intro x hx
  rcases mem_openLeft hx with hx | rfl
  · exact edgeCompare_of_lt (lt_of_lt_of_le (h.before x hx) hse)
  · rw [edgeCompare_end]
    exact (Nat.lt_or_eq_of_le hse).imp id fun he => ⟨he, rfl⟩

theorem Split.wellFormed {l pre mid rest : List Edge} {s e : Nat} (h : Split l s e pre mid rest)
    (hwf : WellFormed l) : WellFormed (pre ++ mid ++ rest) := by
  rwa [List.append_assoc, ← h.eq]

/-- `insert` into an empty set. -/
theorem insert_empty {st : IntervalSet} {s e : Nat} (hemp : st.intervals = []) (hse : s ≤ e) :
    insert A st s e = ⟨[⟨s, true⟩, ⟨e, false⟩], A.toSize (A.span s e)⟩ := by
  have h1 : OrderedList.insert edgeCompare ([] ++ []) ⟨s, true⟩ = ([⟨s, true⟩], 0) :=
    OrderedList.insert_split (by simp) (by simp)
  have h2 : OrderedList.insert edgeCompare ([⟨s, true⟩] ++ []) ⟨e, false⟩
      = ([⟨s, true⟩] ++ [⟨e, false⟩], 1) := by
    apply OrderedList.insert_split
    · intro x hx
      rw [List.mem_singleton] at hx
      rw [hx]
      exact not_edgeCompare_start hse
    · simp
  rw [List.append_nil] at h1 h2
  simp only [insert, hemp, List.isEmpty_nil, if_true, h1, h2]
  rfl

/-- **What `insert` does**, to the edges and to the size. -/
theorem insert_eq {st : IntervalSet} {pre mid rest : List Edge} {s e : Nat}
    (h : Split st.intervals s e pre mid rest) (hwf : WellFormed st.intervals)
    (hh : ∀ x ∈ st.intervals, A.Holds x.first) (hs : A.Holds s) (hse : s ≤ e)
    (hne : st.intervals ≠ []) :
    ∃ mid' w, Entered s pre mid mid' w ∧ w.Fresh s ∧
      insert A st s e
        = ⟨openLeft s pre ++ closeRight e (lastFlag false (pre ++ mid)) rest,
            A.toSize (st.size + (A.toSize (A.span s e) -
              (sweep A e w (mid' ++ rest)).1.total A e))⟩ := by
  obtain ⟨mid', w, k, hadd, hk, hent, hfresh⟩ := addStart_spec h hwf hne hs hse
  have hm' : ∀ x ∈ mid', x.first ≤ e := fun x hx => (h.between x (hent.mem hx)).2
  obtain ⟨htail, hinside⟩ := sweep_split (A := A) w hm' h.after
  rw [hent.flag] at hinside
  have hhr : ∀ x ∈ rest, A.Holds x.first := by
    intro x hx
    exact hh x (by rw [h.eq]; simp [hx])
  have hend := addEnd_split (w := (sweep A e w (mid' ++ rest)).1) (openLeft_before_end h hse)
    h.after hhr fun x hx => by rw [hinside]; exact (h.wellFormed hwf).head_flag hx
  refine ⟨mid', w, hent, hfresh, ?_⟩
  have hemp : ¬ st.intervals.isEmpty = true := by rwa [List.isEmpty_iff]
  simp only [insert, if_neg hemp, hadd, hk, List.drop_left, List.take_left, htail, hend, hinside]

theorem insert_intervals {st : IntervalSet} {pre mid rest : List Edge} {s e : Nat}
    (h : Split st.intervals s e pre mid rest) (hwf : WellFormed st.intervals)
    (hh : ∀ x ∈ st.intervals, A.Holds x.first) (hs : A.Holds s) (hse : s ≤ e) :
    (insert A st s e).intervals
      = openLeft s pre ++ closeRight e (lastFlag false (pre ++ mid)) rest := by
  by_cases hemp : st.intervals = []
  · have hnil := h.eq
    rw [hemp, eq_comm, List.append_eq_nil_iff, List.append_eq_nil_iff] at hnil
    obtain ⟨rfl, rfl, rfl⟩ := hnil
    rw [insert_empty hemp hse]
    rfl
  · obtain ⟨mid', w, -, -, heq⟩ := insert_eq h hwf hh hs hse hemp
    rw [heq]

/-! ## Removing an interval -/

/-- The edges before a removed interval. -/
def closeLeft (startElement : Nat) (pre : List Edge) : List Edge :=
  if lastFlag false pre then pre ++ [⟨startElement - 1, false⟩] else pre

/-- The edges after a removed interval. -/
def openRight (endElement : Nat) (inside : Bool) (rest : List Edge) : List Edge :=
  if inside then ⟨endElement + 1, true⟩ :: rest else rest

theorem closeStart_spec {s : Nat} {pre suf : List Edge} (hs : A.Holds s)
    (hp : ∀ x ∈ pre, x.first < s) (hsuf : ∀ x ∈ suf, s ≤ x.first) :
    ∃ w, closeStart A (pre ++ suf) pre.length s
        = (closeLeft s pre ++ suf, (closeLeft s pre).length, w) ∧
      w.inside = lastFlag false pre ∧ w.Fresh s := by
  rcases List.eq_nil_or_concat' pre with rfl | ⟨q, v, rfl⟩
  · exact ⟨_, rfl, rfl, rfl, by simp⟩
  · have hlen : (q ++ [v]).length ≠ 0 := by simp
    have hget : (q ++ [v] ++ suf)[(q ++ [v]).length - 1]? = some v := by simp
    have hflag : lastFlag false (q ++ [v]) = v.second := by
      rw [lastFlag_append]
      rfl
    unfold closeStart closeLeft
    rw [if_neg hlen, hget, hflag]
    cases hv : v.second with
    | false => exact ⟨⟨false, 0, 0⟩, by simp [hv], rfl, rfl, by simp⟩
    | true =>
        have hpos : v.first < s := hp v (by simp)
        -- there is an edge before the start, so `startElement - 1` does not wrap
        have hpred : ((s : Int) - 1) = ((s - 1 : Nat) : Int) := by omega
        have hh : A.Holds (s - 1) := hs.of_le (Nat.sub_le s 1)
        have hins : OrderedList.insert edgeCompare (q ++ [v] ++ suf) ⟨s - 1, false⟩
            = (q ++ [v] ++ ⟨s - 1, false⟩ :: suf, (q ++ [v]).length) := by
          apply OrderedList.insert_split
          · intro x hx
            have := hp x hx
            rcases Nat.lt_or_eq_of_le (Nat.le_sub_one_of_lt this) with hlt | heq
            · exact edgeCompare_of_gt hlt
            · simp [edgeCompare, heq]
          · intro x hx
            have := hsuf x (List.mem_of_mem_head? hx)
            exact edgeCompare_of_lt (show s - 1 < x.first by omega)
        refine ⟨⟨true, s, 0⟩, ?_, rfl, rfl, fun _ => rfl⟩
        simp only [hv, if_true, hpred, hh.expr, hh.toElem, hins]
        simp

theorem mem_closeLeft {s : Nat} {pre : List Edge} {x : Edge} (hx : x ∈ closeLeft s pre) :
    x ∈ pre ∨ x = ⟨s - 1, false⟩ := by
  unfold closeLeft at hx
  split_ifs at hx
  · rwa [List.mem_append, List.mem_singleton] at hx
  · exact Or.inl hx

/-- `erase` behind the last interval, or in an empty set. -/
theorem erase_behind {st : IntervalSet} {pre mid rest : List Edge} {s e : Nat}
    (h : Split st.intervals s e pre mid rest) (hnil : mid ++ rest = []) : erase A st s e = st := by
  have heq : st.intervals = pre ++ [] := by rw [h.eq, hnil]
  have hrest : ∀ x ∈ ([] : List Edge), s ≤ x.first := by simp
  have hlb := lowerBound_start h.before hrest
  rw [← heq] at hlb
  unfold erase
  by_cases hemp : st.intervals.isEmpty
  · rw [if_pos hemp]
  · have hlen : pre.length = st.intervals.length := by rw [heq, List.append_nil]
    rw [List.isEmpty_iff_length_eq_zero, ← hlen] at hemp
    rw [if_neg (by rwa [List.isEmpty_iff_length_eq_zero, ← hlen]), hlb, if_pos ⟨hemp, hlen⟩]

/-- The start of the interval that remains after a removed one. -/
theorem insert_openRight {l pre mid rest : List Edge} {s e : Nat} (h : Split l s e pre mid rest)
    (hwf : WellFormed l) (hse : s ≤ e) (hb : lastFlag false (pre ++ mid) = true) :
    OrderedList.insert edgeCompare (closeLeft s pre ++ rest) ⟨e + 1, true⟩
      = (closeLeft s pre ++ ⟨e + 1, true⟩ :: rest, (closeLeft s pre).length) := by
  have hwf' := h.wellFormed hwf
  apply OrderedList.insert_split
  · intro x hx
    have hxe : x.first < e + 1 := by
      rcases mem_closeLeft hx with hx | rfl
      · exact lt_trans (h.before x hx) (Nat.lt_succ_of_le hse)
      · exact lt_of_le_of_lt (Nat.sub_le s 1) (Nat.lt_succ_of_le hse)
    exact edgeCompare_of_gt hxe
  · intro x hx
    have hxs : x.second = false := by
      rw [hwf'.head_flag hx, hb]
      rfl
    rcases Nat.lt_or_eq_of_le (Nat.succ_le_of_lt (h.after x (List.mem_of_mem_head? hx)))
      with hlt | heq
    · exact edgeCompare_of_lt hlt
    · simp [edgeCompare, ← heq, hxs]

/-- **What `erase` does**, to the edges and to the size. -/
theorem erase_eq {st : IntervalSet} {pre mid rest : List Edge} {s e : Nat}
    (h : Split st.intervals s e pre mid rest) (hwf : WellFormed st.intervals)
    (hh : ∀ x ∈ st.intervals, A.Holds x.first) (hs : A.Holds s) (hse : s ≤ e)
    (hne : mid ++ rest ≠ []) :
    ∃ w, w.inside = lastFlag false pre ∧ w.Fresh s ∧
      erase A st s e
        = ⟨closeLeft s pre ++ openRight e (lastFlag false (pre ++ mid)) rest,
            A.toSize (st.size - (sweep A e w (mid ++ rest)).1.total A e)⟩ := by
  have hsuf := h.suffix_ge hse
  have hlb := lowerBound_start h.before hsuf
  obtain ⟨w, hclose, hw, hfresh⟩ := closeStart_spec hs h.before hsuf
  rw [← h.eq] at hlb hclose
  have hlen : pre.length ≠ st.intervals.length := by
    have := List.length_pos_of_ne_nil hne
    rw [h.eq, List.length_append]
    omega
  have hemp : ¬ st.intervals.isEmpty = true := by
    rw [List.isEmpty_iff, h.eq, List.append_eq_nil_iff]
    exact fun hnil => hne hnil.2
  obtain ⟨htail, hinside⟩ := sweep_split (A := A) w (fun x hx => (h.between x hx).2) h.after
  rw [hw, ← lastFlag_append] at hinside
  refine ⟨w, hw, hfresh, ?_⟩
  simp only [erase, if_neg hemp, hlb, if_neg fun hc : _ ∧ _ => hlen hc.2, hclose, List.drop_left,
    List.take_left, htail, Sweep.total, hinside]
  cases hb : lastFlag false (pre ++ mid) with
  | false => simp [openRight]
  | true =>
      -- an interval goes on after the end, so `endElement + 1` does not wrap
      have hwf' := h.wellFormed hwf
      obtain ⟨v, rest', hrest⟩ := List.exists_cons_of_ne_nil (hwf'.ne_nil_of_inside hb)
      have hmem : v ∈ rest := by rw [hrest]; exact List.mem_cons_self
      have hhe : A.Holds (e + 1) := (hh v (by rw [h.eq]; simp [hmem])).of_le (h.after v hmem)
      have hsucc : ((e : Int) + 1) = ((e + 1 : Nat) : Int) := by omega
      simp only [if_true, hsucc, hhe.expr, hhe.toElem, insert_openRight h hwf hse hb, openRight]

theorem erase_intervals {st : IntervalSet} {pre mid rest : List Edge} {s e : Nat}
    (h : Split st.intervals s e pre mid rest) (hwf : WellFormed st.intervals)
    (hh : ∀ x ∈ st.intervals, A.Holds x.first) (hs : A.Holds s) (hse : s ≤ e) :
    (erase A st s e).intervals
      = closeLeft s pre ++ openRight e (lastFlag false (pre ++ mid)) rest := by
  by_cases hnil : mid ++ rest = []
  · -- all edges are before the start, and the last one is an end
    rw [erase_behind h hnil]
    obtain ⟨rfl, rfl⟩ := List.append_eq_nil_iff.mp hnil
    have hb : lastFlag false pre = false := by
      by_contra hb
      rw [Bool.not_eq_false] at hb
      exact (h.wellFormed hwf).ne_nil_of_inside (by simpa using hb) rfl
    simp [closeLeft, openRight, hb, h.eq]
  · obtain ⟨w, -, -, heq⟩ := erase_eq h hwf hh hs hse hnil
    rw [heq]

end Lunchbox.IntervalSet
