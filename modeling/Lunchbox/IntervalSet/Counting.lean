import Lunchbox.Lib.Machine
import Lunchbox.IntervalSet.Canonical
import Lunchbox.IntervalSet.Size

set_option autoImplicit false

/-! # Sizes that go wrong

Two ways in which `_size` ceases to be the number of elements, each with the exact condition.
`swap` exchanges the edges of two sets but not their sizes, so that the sets have to be of equal
size, where no set has more elements than `size_t` counts. And the number of elements of an interval
is computed in the element type, where the interval from 0 to the maximum has length 0: inserting it
is right only if all elements are there already, and erasing it only if one of them is not.
-/

namespace Lunchbox.IntervalSet

open StateMachine Function

/-! ## Sets that are swapped -/

section Swap

variable {A : Arith} {ι : Type} [DecidableEq ι]

/-- What a program does with its sets. -/
inductive Action (A : Arith) (ι : Type)
  | call (k : ι) (op : Op A)
  /-- `sets[k].swap(sets[m])` -/
  | swap (k m : ι)

def sets (A : Arith) (ι : Type) [DecidableEq ι] :
    Machine (ι → IntervalSet) (Action A ι) Unit where
  init _ := new
  step s
    | .call k op => some ((), update s k (apply (s k) op))
    | .swap k m =>
        let (a, b) := (s k).swap (s m)
        some ((), update (update s k a) m b)

/-- Lengths of intervals are computed as those of natural numbers. -/
def Exact (_ : ι → IntervalSet) : Action A ι → Prop
  | .call _ op => op.Counts
  | .swap _ _ => True

/-- Fewer elements exist than `size_t` has values. -/
def Fits (A : Arith) (st : IntervalSet) : Prop :=
  ∀ F : Finset Nat, (∀ x ∈ F, st.exists x = true) → F.card < A.size

/-- The sets that are swapped are of equal size, and no set gets too many elements. -/
def SizesFit (s : ι → IntervalSet) : Action A ι → Prop
  | .call k op => Fits A (apply (s k) op)
  | .swap k m => (s k).size = (s m).size

theorem fits_iff {st : IntervalSet} (h : WellFormed st.intervals) :
    Fits A st ↔ weight st.intervals < A.size := by
  obtain ⟨F, hF, hcard⟩ := exists_elements h
  have hmem : ∀ x, x ∈ F ↔ st.exists x = true := by
    intro x
    rw [hF, exists_eq_cover h]
  rw [← hcard, Int.ofNat_lt]
  constructor
  · intro hfits
    exact hfits F fun x hx => (hmem x).mp hx
  · intro hlt F' hF'
    have hsub : F' ⊆ F := fun x hx => (hmem x).mpr (hF' x hx)
    exact Nat.lt_of_le_of_lt (Finset.card_le_card hsub) hlt

/-- What a set stores depends on its edges only. -/
theorem Stores.of_intervals {s s' : IntervalSet} {S : Set Nat} (h : Stores A s S)
    (he : s'.intervals = s.intervals) : Stores A s' S := by
  obtain ⟨hwf, hholds, hmem⟩ := h
  rw [← he] at hwf hholds
  refine ⟨hwf, hholds, fun x => ?_⟩
  rw [he]
  exact hmem x

theorem stores_sets {tr : List (Action A ι × Unit)} {s : ι → IntervalSet}
    (h : (sets A ι).Trace tr s) : ∀ k, ∃ S, Stores A (s k) S := by
  refine h.stateInv (fun s => ∀ k, ∃ S, Stores A (s k) S) (fun _ => ⟨∅, stores_new⟩) ?_
  intro s a _ s' hs hstep
  cases a with
  | call k op =>
      cases hstep
      obtain ⟨S, hS⟩ := hs k
      refine (forall_update_iff s fun _ v => ∃ S, Stores A v S).mpr ⟨?_, fun j _ => hs j⟩
      exact ⟨_, stores_apply hS op⟩
  | swap k m =>
      cases hstep
      obtain ⟨S, hS⟩ := hs k
      obtain ⟨S', hS'⟩ := hs m
      refine (forall_update_iff _ fun _ v => ∃ S, Stores A v S).mpr
        ⟨⟨S, hS.of_intervals rfl⟩, fun j _ => ?_⟩
      by_cases hj : j = k
      · subst hj
        rw [update_self]
        exact ⟨S', hS'.of_intervals rfl⟩
      · rw [update_of_ne hj]
        exact hs j

/-- An operation on a set with the right size gives one with the right size exactly if the elements
fit. -/
theorem accounts_apply_iff {s : IntervalSet} {S : Set Nat} (h : Stores A s S) (hs : Accounts s)
    (hlt : s.size < A.size) {op : Op A} (hc : op.Counts) :
    Accounts (apply s op) ↔ Fits A (apply s op) := by
  have hwf := (stores_apply h op).wellFormed
  have hsz : Sized A s := congrArg (· % (A.size : Int)) ((accounts_iff h.wellFormed).mp hs)
  rw [accounts_iff hwf, fits_iff hwf]
  exact (hsz.apply h hc).eq_weight_iff hwf (size_lt_apply h hlt op)

/-- After a swap, the sets have each other's elements and their own sizes. -/
theorem accounts_swap {s : ι → IntervalSet} (hwf : ∀ k, WellFormed (s k).intervals)
    (hs : ∀ k, Accounts (s k)) (k m : ι) :
    (∀ j, Accounts (update (update s k ((s k).swap (s m)).1) m ((s k).swap (s m)).2 j)) ↔
      (s k).size = (s m).size := by
  have hk := (accounts_iff (hwf k)).mp (hs k)
  have hm := (accounts_iff (hwf m)).mp (hs m)
  have hnew : Accounts ((s k).swap (s m)).2 ↔ (s k).size = (s m).size := by
    rw [@accounts_iff ((s k).swap (s m)).2 (hwf k)]
    show ((s m).size : Int) = weight (s k).intervals ↔ _
    omega
  rw [forall_update_iff _ fun _ => Accounts, hnew]
  refine and_iff_left_of_imp fun heq j _ => ?_
  by_cases hj : j = k
  · subst hj
    rw [update_self, @accounts_iff ((s j).swap (s m)).1 (hwf m)]
    show ((s j).size : Int) = weight (s m).intervals
    omega
  · rw [update_of_ne hj]
    exact hs j

theorem size_lt_sets {tr : List (Action A ι × Unit)} {s : ι → IntervalSet}
    (h : (sets A ι).Trace tr s) : ∀ k, (s k).size < A.size := by
  induction h with
  | nil => exact fun _ => A.size_pos
  | @snoc tr s a _ s' ht hstep ih =>
      cases a with
      | call k op =>
          cases hstep
          obtain ⟨S, hS⟩ := stores_sets ht k
          exact (forall_update_iff s fun _ v => v.size < A.size).mpr
            ⟨size_lt_apply hS (ih k) op, fun j _ => ih j⟩
      | swap k m =>
          cases hstep
          intro j
          -- each set keeps its own size
          rcases eq_or_ne j m with rfl | hm
          · rw [update_self]
            exact ih j
          · rw [update_of_ne hm]
            rcases eq_or_ne j k with rfl | hk
            · rw [update_self]
              exact ih j
            · rw [update_of_ne hk]
              exact ih j

/-- **Sizes under `swap`.** In every history over any number of sets, with elements that are counted
as natural numbers, all sizes are right in every state exactly if every swap is between sets of
equal size and no set gets as many elements as `size_t` has values. -/
theorem swap_keeps_sizes_iff {tr : List (Action A ι × Unit)} {s : ι → IntervalSet}
    (h : (sets A ι).Trace tr s) (hexact : (sets A ι).Guarded Exact tr) :
    (sets A ι).Always (fun _ s => ∀ k, Accounts (s k)) tr ↔
      (sets A ι).Guarded SizesFit tr := by
  refine h.always_iff_guarded_under (fun _ => True) trivial (fun _ => ?_)
    (fun _ _ _ _ _ _ _ _ => trivial) ?_ hexact
  · exact (accounts_iff (stores_new (A := A)).wellFormed).mpr rfl
  · intro tr s a _ s' ht _ hcounts hs hstep
    have hstores := stores_sets ht
    cases a with
    | call k op =>
        cases hstep
        have hk := accounts_apply_iff (hstores k).choose_spec (hs k) (size_lt_sets ht k) hcounts
        rw [forall_update_iff s fun _ => Accounts, hk]
        exact and_iff_left fun j _ => hs j
    | swap k m =>
        cases hstep
        exact accounts_swap (fun j => (hstores j).choose_spec.wellFormed) hs k m

/-- Sets of three elements each are swapped, and one of them then loses two of its elements. -/
def equalSwaps : List (Action (Arith.natural 64) Bool) :=
  [.call false (.insert 1 3 (by decide) (Or.inl rfl)),
    .call true (.insert 5 7 (by decide) (Or.inl rfl)),
    .swap false true, .call false (.erase 6 9 (by decide) (Or.inl rfl))]

theorem swap_keeps_sizes_equal :
    ∃ tr s, (sets (Arith.natural 64) Bool).Trace tr s ∧ tr.length = 4 ∧
      (sets (Arith.natural 64) Bool).Guarded SizesFit tr ∧
      (sets (Arith.natural 64) Bool).Always (fun _ s => ∀ k, Accounts (s k)) tr ∧
      (s false).size = 1 := by
  have htrace := Machine.Trace.of_run (M := sets (Arith.natural 64) Bool) equalSwaps rfl
  have hcounts : ∀ op : Op (Arith.natural 64), op.Counts := Op.counts_of_promoted rfl
  have hfits : ∀ ops : List (Op (Arith.natural 64)), weight (run ops).intervals < 2 ^ 64 →
      Fits (Arith.natural 64) (run ops) :=
    fun ops hlt => (fits_iff (stores_run ops).wellFormed).mpr hlt
  have hexact := Machine.guarded_of_run (M := sets (Arith.natural 64) Bool) (G := Exact)
    equalSwaps rfl (by simp [equalSwaps, Machine.meets, Exact, sets, hcounts])
  have hguard := Machine.guarded_of_run (M := sets (Arith.natural 64) Bool) (G := SizesFit)
    equalSwaps rfl (by
      simp only [equalSwaps, Machine.meets, SizesFit, sets, Option.mem_def, Option.some.injEq,
        forall_eq', and_true]
      refine ⟨?_, ?_, by decide, ?_⟩
      · exact hfits [.insert 1 3 (by decide) (Or.inl rfl)] (by decide)
      · exact hfits [.insert 5 7 (by decide) (Or.inl rfl)] (by decide)
      · exact hfits [.insert 5 7 (by decide) (Or.inl rfl), .erase 6 9 (by decide) (Or.inl rfl)]
          (by decide))
  exact ⟨_, _, htrace, rfl, hguard, (swap_keeps_sizes_iff htrace hexact).mpr hguard, by decide⟩

/-- A set of three elements is swapped with an empty one. -/
theorem swap_leaves_sizes :
    ∃ tr s, (sets (Arith.natural 64) Bool).Trace tr s ∧
      tr.map Prod.fst = [.call false (.insert 1 3 (by decide) (Or.inl rfl)), .swap false true] ∧
      (s false).size = 3 ∧ (∀ x, (s false).exists x = false) ∧
      (s true).empty = true ∧ (s true).exists 2 = true ∧ ¬ ∀ k, Accounts (s k) := by
  refine ⟨_, _, Machine.Trace.of_run (M := sets (Arith.natural 64) Bool)
    [.call false (.insert 1 3 (by decide) (Or.inl rfl)), .swap false true] rfl, rfl, by decide,
    fun _ => rfl, by decide, by decide, ?_⟩
  intro h
  obtain ⟨F, hF, hsize, -⟩ := h true
  have hmem : 2 ∈ F := (hF 2).mpr (by decide)
  rw [Finset.card_eq_zero.mp hsize.symm] at hmem
  cases hmem

end Swap

/-! ## The interval of all elements -/

section Whole

variable {A : Arith} {st : IntervalSet} {S : Set Nat} {l : List Edge} {a b : Nat}

/-- Expressions on elements are evaluated in the element type, and `size_t` has more values. -/
structure Arith.Narrow (A : Arith) : Prop where
  promoted : A.promoted = A.elem
  one_lt : 1 < A.elem
  lt_size : A.elem < A.size

/-- The edges of the set of all elements. -/
def whole (A : Arith) : List Edge := [⟨0, true⟩, ⟨A.elem - 1, false⟩]

theorem wellFormed_whole : WellFormed (whole A) := by
  refine ⟨?_, by simp [whole], by simp [whole]⟩
  rw [whole, List.isChain_pair]
  exact follows_start.mpr ⟨rfl, Nat.zero_le _⟩

theorem cover_whole {x : Nat} : cover x false (whole A) = true ↔ x ≤ A.elem - 1 := by
  rw [whole, cover_bounds (by simp)]
  simp [cover]

theorem lt_elem (hA : A.Narrow) {x : Nat} : A.Holds x ↔ x < A.elem := by
  have := hA.one_lt
  unfold Arith.Holds
  omega

theorem Stores.lt_elem (hA : A.Narrow) (h : Stores A st S) {v : Edge} (hv : v ∈ st.intervals) :
    v.first < A.elem :=
  (IntervalSet.lt_elem hA).mp (h.holds v hv)

theorem whole_iff (hA : A.Narrow) (h : Stores A st S) :
    st.intervals = whole A ↔ ∀ x, x < A.elem → st.exists x = true := by
  have h1 := hA.one_lt
  constructor
  · intro hw x hx
    rw [exists_eq_cover h.wellFormed, hw, cover_whole]
    omega
  · intro hall
    refine eq_of_cover h.wellFormed _ wellFormed_whole fun x => ?_
    rw [cover_whole, ← exists_eq_cover h.wellFormed]
    constructor
    · intro hx
      rw [exists_eq_cover h.wellFormed] at hx
      obtain ⟨q, a, b, r, hl, -, -, hxb⟩ := find_split h.wellFormed hx
      have : b < A.elem := h.lt_elem hA (v := ⟨b, false⟩) (by simp [hl])
      omega
    · intro hx
      exact hall x (by omega)

theorem weight_le (hA : A.Narrow) (h : Stores A st S) : weight st.intervals ≤ A.elem := by
  obtain ⟨F, hF, hcard⟩ := exists_elements h.wellFormed
  have hsub : F ⊆ Finset.range A.elem := by
    intro x hx
    obtain ⟨q, a, b, r, hl, -, -, hxb⟩ := find_split h.wellFormed ((hF x).mp hx)
    have : b < A.elem := h.lt_elem hA (v := ⟨b, false⟩) (by simp [hl])
    exact Finset.mem_range.mpr (by omega)
  have := Finset.card_le_card hsub
  rw [Finset.card_range] at this
  omega

/-! Lengths of intervals. -/

theorem span_of_lt (hA : A.Narrow) (hab : a ≤ b) (hlt : b - a + 1 < A.elem) :
    A.span a b = b - a + 1 := by
  unfold Arith.span Arith.expr
  rw [hA.promoted, Int.emod_eq_of_lt (by omega) (by omega)]

theorem span_whole (hA : A.Narrow) : A.span 0 (A.elem - 1) = 0 := by
  have h1 := hA.one_lt
  unfold Arith.span Arith.expr
  rw [hA.promoted, show (((A.elem - 1 : Nat) : Int) - ((0 : Nat) : Int) + 1) = A.elem by omega,
    Int.emod_self]

theorem counts_of_ne (hA : A.Narrow) (hb : b < A.elem) (hne : ¬ (a = 0 ∧ b + 1 = A.elem)) :
    A.Counts a b := by
  intro c d hac hcd hdb
  exact span_of_lt hA hcd (by omega)

theorem toSize_eq {x : Int} {n : Nat} (hn : n < A.size) (h : x ≡ n [ZMOD A.size]) :
    A.toSize x = n := by
  apply eq_of_modEq (toSize_lt x) hn
  exact (toSize_modEq x).trans h

/-- The loop over all edges counts all elements, unless they are one interval. -/
theorem sweep_all (hA : A.Narrow) (h : WellFormed l) : ∀ w : Sweep, w.inside = false →
    (∀ v ∈ l, v.first < A.elem) → l ≠ whole A →
    (sweep A (A.elem - 1) w l).1.inside = false ∧
      ((sweep A (A.elem - 1) w l).1.overlappingPortion : Int)
        ≡ w.overlappingPortion + weight l [ZMOD A.size] := by
  refine WellFormed.intervals_induction ?_ ?_ h
  · intro w hw _ _
    refine ⟨hw, ?_⟩
    rw [weight_nil, add_zero]
    rfl
  · intro a c l hac _ hgap ih w hw hlt hne
    obtain ⟨hla, hlt⟩ := List.forall_mem_cons.mp hlt
    obtain ⟨hlc, hlt⟩ := List.forall_mem_cons.mp hlt
    simp only at hla hlc
    have hspan : A.span a c = c - a + 1 := by
      refine span_of_lt hA hac ?_
      by_contra hlong
      -- nothing fits after the interval of all elements
      have hnil : l = [] := List.eq_nil_iff_forall_not_mem.mpr fun v hv => by
        have := hgap v hv
        have := hlt v hv
        omega
      apply hne
      rw [hnil, whole, show a = 0 by omega, show c = A.elem - 1 by omega]
    have hrest : l ≠ whole A := by
      rintro rfl
      have := hgap ⟨0, true⟩ (by simp [whole])
      simp only at this
      omega
    have hround : sweep A (A.elem - 1) w (⟨a, true⟩ :: ⟨c, false⟩ :: l)
        = sweep A (A.elem - 1) ⟨false, a, A.toSize (w.overlappingPortion + A.span a c)⟩ l := by
      have ha : a ≤ A.elem - 1 := by omega
      have hc : c ≤ A.elem - 1 := by omega
      simp [sweep, hw, ha, hc, Sweep.add]
    obtain ⟨hin, hportion⟩ :=
      ih ⟨false, a, A.toSize (w.overlappingPortion + A.span a c)⟩ rfl hlt hrest
    rw [hround]
    refine ⟨hin, hportion.trans ?_⟩
    have hsize := hA.lt_size
    rw [hspan, weight_cons, weight_cons, weight_start, weight_end]
    refine (Int.ModEq.add_right _ (toSize_modEq (A := A) _)).trans ?_
    exact congrArg (· % (A.size : Int)) (by ring)

/-- What `insert` and `erase` count as the overlap with the interval of all elements. -/
theorem total_whole (hA : A.Narrow) (h : Stores A st S) {mid : List Edge} {w : Sweep}
    (hent : Entered 0 [] st.intervals mid w) (hfresh : w.Fresh 0) :
    ((sweep A (A.elem - 1) w (mid ++ [])).1.total A (A.elem - 1) : Int)
      ≡ if st.intervals = whole A then 0 else weight st.intervals [ZMOD A.size] := by
  have h1 := hA.one_lt
  -- a start that is the start of the interval itself is counted as if the loop removed it
  obtain ⟨w', hin, hportion, hsweep⟩ : ∃ w', w'.inside = false ∧ w'.overlappingPortion = 0 ∧
      sweep A (A.elem - 1) w (mid ++ []) = sweep A (A.elem - 1) w' st.intervals := by
    rcases hent with ⟨rfl, hw⟩ | ⟨-, hl, hw⟩
    · exact ⟨w, hw, hfresh.1, by rw [List.append_nil]⟩
    · refine ⟨⟨false, 0, 0⟩, rfl, rfl, ?_⟩
      obtain ⟨i, o, p⟩ := w
      obtain ⟨hp, ho⟩ := hfresh
      simp only at hw hp ho
      rw [hl, hw, hp, ho hw, List.append_nil]
      simp [sweep]
  rw [hsweep]
  by_cases hw : st.intervals = whole A
  · rw [if_pos hw, hw]
    have hcount : (sweep A (A.elem - 1) w' (whole A)).1.total A (A.elem - 1) = A.toSize 0 := by
      simp [whole, sweep, Sweep.total, Sweep.add, hin, hportion, span_whole hA]
    rw [hcount]
    exact toSize_modEq 0
  · rw [if_neg hw]
    obtain ⟨hout, hcount⟩ := sweep_all hA h.wellFormed w' hin (fun v hv => h.lt_elem hA hv) hw
    rw [Sweep.total, hout, if_neg (by decide)]
    rwa [hportion, Nat.cast_zero, zero_add] at hcount

theorem split_whole (hA : A.Narrow) (h : Stores A st S) :
    Split st.intervals 0 (A.elem - 1) [] st.intervals [] := by
  refine ⟨by simp, by simp, fun v hv => ⟨Nat.zero_le _, ?_⟩, by simp⟩
  have := h.lt_elem hA hv
  omega

theorem weight_whole (hA : A.Narrow) : weight (whole A) = A.elem := by
  have := hA.one_lt
  rw [whole, weight_cons, weight_cons, weight_start, weight_end, weight_nil]
  omega

/-- The size without the overlap that is counted. -/
theorem size_whole (hA : A.Narrow) (h : Stores A st S) (hst : Accounts st) {mid : List Edge}
    {w : Sweep} (hent : Entered 0 [] st.intervals mid w) (hfresh : w.Fresh 0) :
    A.toSize (st.size - (sweep A (A.elem - 1) w (mid ++ [])).1.total A (A.elem - 1))
      = if st.intervals = whole A then A.elem else 0 := by
  have hsize := hA.lt_size
  have htotal := total_whole hA h hent hfresh
  rw [accounts_iff h.wellFormed] at hst
  split_ifs at htotal ⊢ with hw
  · apply toSize_eq hsize
    rw [hst, hw, weight_whole hA]
    have := (Int.ModEq.refl (A.elem : Int)).sub htotal
    rwa [sub_zero] at this
  · apply toSize_eq (by omega)
    have := (Int.ModEq.refl (st.size : Int)).sub htotal
    rwa [← hst, sub_self] at this

/-- Inserting the interval of all elements. -/
theorem accounts_insert_whole (hA : A.Narrow) (h : Stores A st S) (hst : Accounts st) :
    Accounts (insert A st 0 (A.elem - 1)) ↔ ∀ x, x < A.elem → st.exists x = true := by
  have h1 := hA.one_lt
  have hmax : A.Holds (A.elem - 1) := (lt_elem hA).mpr (by omega)
  have hnew := h.insert (Nat.zero_le (A.elem - 1)) hmax
  have hall : (insert A st 0 (A.elem - 1)).intervals = whole A := by
    rw [whole_iff hA hnew]
    intro x hx
    rw [exists_eq_cover hnew.wellFormed, hnew.mem]
    exact Or.inr ⟨Nat.zero_le x, by omega⟩
  have hsize : (insert A st 0 (A.elem - 1)).size
      = if st.intervals = whole A then A.elem else 0 := by
    by_cases hemp : st.intervals = []
    · rw [insert_empty hemp (Nat.zero_le _), span_whole hA, toSize_zero, if_neg]
      simp [hemp, whole]
    · obtain ⟨mid, w, hent, hfresh, heq⟩ := insert_eq (split_whole hA h) h.wellFormed h.holds
        (hmax.of_le (Nat.zero_le _)) (Nat.zero_le _) hemp
      rw [heq, ← size_whole hA h hst hent hfresh, span_whole hA, toSize_zero, Nat.cast_zero,
        zero_sub, ← sub_eq_add_neg]
  rw [accounts_iff hnew.wellFormed, hall, weight_whole hA, ← whole_iff hA h, hsize]
  split_ifs with hw
  · exact iff_of_true rfl hw
  · exact iff_of_false (by omega) hw

/-- Erasing the interval of all elements. -/
theorem accounts_erase_whole (hA : A.Narrow) (h : Stores A st S) (hst : Accounts st) :
    Accounts (erase A st 0 (A.elem - 1)) ↔ ∃ x, x < A.elem ∧ st.exists x = false := by
  have h1 := hA.one_lt
  have hmax : A.Holds (A.elem - 1) := (lt_elem hA).mpr (by omega)
  have hgap : (∃ x, x < A.elem ∧ st.exists x = false) ↔ st.intervals ≠ whole A := by
    rw [Ne, whole_iff hA h]
    push Not
    simp only [ne_eq, Bool.not_eq_true]
  have hsplit := split_whole hA h
  rw [hgap]
  by_cases hnil : st.intervals ++ [] = []
  · rw [erase_behind hsplit hnil]
    rw [List.append_nil] at hnil
    exact iff_of_true hst (by simp [hnil, whole])
  obtain ⟨w, hw, hfresh, heq⟩ := erase_eq hsplit h.wellFormed h.holds
    (hmax.of_le (Nat.zero_le _)) (Nat.zero_le _) hnil
  have hempty : (erase A st 0 (A.elem - 1)).intervals = [] := by
    have hflag : lastFlag false ([] ++ st.intervals) = false := by
      by_contra hb
      rw [Bool.not_eq_false] at hb
      exact (hsplit.wellFormed h.wellFormed).ne_nil_of_inside hb rfl
    rw [heq, hflag]
    rfl
  rw [accounts_iff (h.erase (Nat.zero_le _) hmax).wellFormed, hempty, weight_nil, heq,
    size_whole hA h hst (Or.inl ⟨rfl, hw⟩) hfresh]
  split_ifs with hall
  · have hne : (A.elem : Int) ≠ 0 := by omega
    exact iff_of_false hne (not_not_intro hall)
  · exact iff_of_true rfl hall

/-! Sequences of operations. -/

/-- The interval of all elements is inserted only if they exist, and erased only if not. -/
def Spans (st : IntervalSet) : Op A → Prop
  | .insert a b _ _ => a = 0 → b + 1 = A.elem → ∀ x, x < A.elem → st.exists x = true
  | .erase a b _ _ => a = 0 → b + 1 = A.elem → ∃ x, x < A.elem ∧ st.exists x = false
  | _ => True

/-- A size that is right up to the range of `size_t` is right. -/
theorem Sized.accounts (hA : A.Narrow) (hsz : Sized A st) (h : Stores A st S)
    (hlt : st.size < A.size) : Accounts st := by
  have hle := weight_le hA h
  have hsize := hA.lt_size
  rw [accounts_iff h.wellFormed, hsz.eq_weight_iff h.wellFormed hlt]
  omega

/-- One operation, from a state with the right size. -/
theorem accounts_apply (hA : A.Narrow) (h : Stores A st S) (hst : Accounts st) (op : Op A) :
    Accounts (apply st op) ↔ Spans st op := by
  have h1 := hA.one_lt
  have hwt := (accounts_iff h.wellFormed).mp hst
  have hsz : Sized A st := congrArg (· % (A.size : Int)) hwt
  have hlt : st.size < A.size := by
    have := weight_le hA h
    have := hA.lt_size
    omega
  -- an operation whose lengths do not wrap
  have hcounts : op.Counts → Accounts (apply st op) := fun hc =>
    (hsz.apply h hc).accounts hA (stores_apply h op) (size_lt_apply h hlt op)
  cases op with
  | insert a b hab hb =>
      by_cases hw : a = 0 ∧ b + 1 = A.elem
      · obtain ⟨rfl, hb'⟩ := hw
        obtain rfl : b = A.elem - 1 := by omega
        refine (accounts_insert_whole hA h hst).trans ?_
        simp [Spans, hb']
      · refine iff_of_true (hcounts ?_) fun ha hb' => absurd ⟨ha, hb'⟩ hw
        exact counts_of_ne hA ((lt_elem hA).mp hb) hw
  | erase a b hab hb =>
      by_cases hw : a = 0 ∧ b + 1 = A.elem
      · obtain ⟨rfl, hb'⟩ := hw
        obtain rfl : b = A.elem - 1 := by omega
        refine (accounts_erase_whole hA h hst).trans ?_
        simp [Spans, hb']
      · refine iff_of_true (hcounts ?_) fun ha hb' => absurd ⟨ha, hb'⟩ hw
        exact counts_of_ne hA ((lt_elem hA).mp hb) hw
  | insertElement a ha =>
      refine iff_of_true (hcounts ?_) trivial
      exact counts_of_ne hA ((lt_elem hA).mp ha) (by omega)
  | eraseElement a ha =>
      refine iff_of_true (hcounts ?_) trivial
      exact counts_of_ne hA ((lt_elem hA).mp ha) (by omega)
  | clear => exact iff_of_true (hcounts trivial) trivial

/-- A program on one set. -/
def program (A : Arith) : Machine IntervalSet (Op A) Unit where
  init := new
  step s op := some ((), apply s op)

/-- `uint32_t`, with `int` of 32 bits and `size_t` of 64 bits. -/
def uint32 : Arith := Arith.unsigned 32 32 64

theorem uint32_narrow : uint32.Narrow := ⟨rfl, by decide, by decide⟩

/-- **Sizes in the element type.** For elements of type `uint32_t` and every history of operations,
the size is right in every state exactly if the interval of all elements is inserted only where all
of them exist, and erased only where one of them does not. -/
theorem uint32_sizes_iff {tr : List (Op uint32 × Unit)} {s : IntervalSet}
    (h : (program uint32).Trace tr s) :
    (program uint32).Always (fun _ s => Accounts s) tr ↔ (program uint32).Guarded Spans tr := by
  refine h.always_iff_guarded ?_ ?_
  · exact (accounts_iff (stores_new (A := uint32)).wellFormed).mpr rfl
  · intro tr s op _ s' ht hs hstep
    have hstores : ∃ S, Stores uint32 s S := by
      refine ht.stateInv (fun s => ∃ S, Stores uint32 s S) ⟨∅, stores_new⟩ ?_
      rintro s op _ s' ⟨S, hS⟩ hstep
      cases hstep
      exact ⟨_, stores_apply hS op⟩
    cases hstep
    obtain ⟨S, hS⟩ := hstores
    exact accounts_apply uint32_narrow hS hs op

/-- All elements in two parts, and then as a whole. -/
def uint32Parts : List (Op uint32) :=
  [.insert 0 9 (by decide) (by decide), .insert 10 4294967295 (by decide) (by decide),
    .insert 0 4294967295 (by decide) (by decide)]

theorem uint32_sizes_parts :
    ∃ tr s, (program uint32).Trace tr s ∧ tr.map Prod.fst = uint32Parts ∧
      (program uint32).Guarded Spans tr ∧ (program uint32).Always (fun _ s => Accounts s) tr ∧
      s.size = 4294967296 := by
  have htrace := Machine.Trace.of_run (M := program uint32) uint32Parts rfl
  have hmeets : (program uint32).meets Spans uint32Parts new := by
    refine ⟨?_, fun r hr => ⟨?_, fun r' hr' => ⟨?_, ?_⟩⟩⟩
    · exact fun _ h => absurd h (by decide)
    · exact fun h => absurd h (by decide)
    · cases hr
      cases hr'
      intro _ _
      exact (whole_iff uint32_narrow (stores_run (uint32Parts.take 2))).mp (by decide)
    · exact fun _ _ => trivial
  have hguard := Machine.guarded_of_run (M := program uint32) uint32Parts rfl hmeets
  exact ⟨_, _, htrace, rfl, hguard, (uint32_sizes_iff htrace).mpr hguard, by decide⟩

/-- The interval of all elements, inserted into an empty set, is counted as 0. -/
theorem uint32_insert_whole :
    ∃ tr s, (program uint32).Trace tr s ∧
      tr.map Prod.fst = [.insert 0 4294967295 (by decide) (by decide)] ∧
      s.size = 0 ∧ s.empty = true ∧ s.exists 7 = true ∧ ¬ Accounts s := by
  refine ⟨_, _, Machine.Trace.of_run (M := program uint32)
    [.insert 0 4294967295 (by decide) (by decide)] rfl, rfl, by decide, by decide, by decide, ?_⟩
  rintro ⟨F, hF, hsize, -⟩
  have hzero : F.card = 0 := hsize.symm.trans (by decide)
  have hmem : 7 ∈ F := (hF 7).mpr (by decide)
  rw [Finset.card_eq_zero.mp hzero] at hmem
  cases hmem

end Whole

end Lunchbox.IntervalSet
