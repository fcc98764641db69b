import Mathlib.Data.Int.ModEq
import Mathlib.Order.Interval.Finset.Nat
import Lunchbox.IntervalSet.Runs

set_option autoImplicit false

/-! # The size of an interval set

`insert` and `erase` update `_size` by the overlap that they count while they remove edges. The
number of elements is the sum of the edges, an end counted as the number of elements up to it
and a start as minus the number of elements before it (`weight`); the loop adds up the same
terms (`sweep_total`). All this is modulo the range of `size_t`, and as long as no interval of an
operation has too many elements for its own type (`Arith.Counts`).
-/

namespace Lunchbox.IntervalSet

variable {A : Arith} {l pre mid rest : List Edge} {s e : Nat}

/-! ## The sum of the edges -/

def Edge.weight (v : Edge) : Int := if v.second then -(v.first : Int) else v.first + 1

def weight (l : List Edge) : Int := (l.map Edge.weight).sum

@[simp] theorem weight_nil : weight [] = 0 := rfl

@[simp] theorem weight_cons (v : Edge) (l : List Edge) : weight (v :: l) = v.weight + weight l := by
  simp [weight]

@[simp] theorem weight_append (l l' : List Edge) : weight (l ++ l') = weight l + weight l' := by
  simp [weight]

@[simp] theorem weight_start (a : Nat) : Edge.weight ⟨a, true⟩ = -(a : Int) := rfl

@[simp] theorem weight_end (a : Nat) : Edge.weight ⟨a, false⟩ = a + 1 := rfl

/-- The elements between well-formed edges are as many as the sum of the edges. -/
theorem exists_elements (h : WellFormed l) :
    ∃ F : Finset Nat, (∀ x, x ∈ F ↔ cover x false l = true) ∧ (F.card : Int) = weight l := by
  refine WellFormed.intervals_induction ?_ ?_ h
  · exact ⟨∅, by simp [cover], rfl⟩
  rintro a c l hac - hl ⟨F, hF, hcard⟩
  have hdisj : Disjoint (Finset.Icc a c) F := by
    rw [Finset.disjoint_left]
    intro x hx hxF
    -- an element of the later intervals is after `c`
    rw [hF, cover_inactive] at hxF
    · cases hxF
    · intro v hv
      have := (Finset.mem_Icc.mp hx).2
      exact not_active_of_gt (by have := hl v hv; omega)
  refine ⟨Finset.Icc a c ∪ F, fun x => ?_, ?_⟩
  · rw [Finset.mem_union, Finset.mem_Icc, hF, cover_bounds hl]
  · rw [Finset.card_union_of_disjoint hdisj, Nat.card_Icc, weight_cons, weight_cons, weight_start,
      weight_end, ← hcard]
    omega

theorem weight_openLeft (s : Nat) (pre : List Edge) :
    weight (openLeft s pre) = weight pre - if lastFlag false pre then 0 else (s : Int) := by
  rcases List.eq_nil_or_concat' pre with rfl | ⟨q, ⟨v, b⟩, rfl⟩
  · simp [openLeft_nil]
  rw [lastFlag_append]
  cases b with
  | true => simp [openLeft_start]
  | false =>
      by_cases ha : v + 1 = s
      · subst ha
        simp [openLeft_touching]
      · simp [openLeft_apart ha, sub_eq_add_neg, add_assoc]

theorem weight_closeRight {b : Bool} (hflag : ∀ v ∈ rest.head?, v.second = !b) :
    weight (closeRight e b rest) = weight rest + if b then 0 else ((e : Int) + 1) := by
  by_cases hfuse : ∃ v ∈ rest.head?, v = ⟨e + 1, true⟩
  · obtain ⟨v, hv, rfl⟩ := hfuse
    have hb : b = false := by
      have := hflag _ hv
      rwa [eq_comm, Bool.not_eq_true'] at this
    obtain ⟨r, rfl⟩ : ∃ r, rest = ⟨e + 1, true⟩ :: r := List.head?_eq_some_iff.mp hv
    rw [closeRight_touching, hb, weight_cons, weight_start, if_neg (by decide)]
    push_cast
    ring
  · rw [closeRight_apart fun v hv he => hfuse ⟨v, hv, he⟩]
    cases b with
    | true => simp
    | false => simp [add_comm]

theorem weight_closeLeft (hp : ∀ v ∈ pre, v.first < s) :
    weight (closeLeft s pre) = weight pre + if lastFlag false pre then (s : Int) else 0 := by
  unfold closeLeft
  by_cases hb : lastFlag false pre = true
  · obtain ⟨v, hv⟩ : ∃ v, v ∈ pre := by
      cases pre with
      | nil => cases hb
      | cons v _ => exact ⟨v, List.mem_cons_self⟩
    have := hp v hv
    rw [if_pos hb, if_pos hb, weight_append, weight_cons, weight_end, weight_nil]
    omega
  · rw [if_neg hb, if_neg hb, add_zero]

theorem weight_openRight (b : Bool) :
    weight (openRight e b rest) = weight rest - if b then ((e : Int) + 1) else 0 := by
  unfold openRight
  cases b with
  | true =>
      rw [if_pos rfl, if_pos rfl, weight_cons, weight_start]
      push_cast
      ring
  | false => simp

/-! ## Counting -/

/-- The number of elements of an interval inside `s` to `e` is a value of the type in which it is
computed. -/
def Arith.Counts (A : Arith) (s e : Nat) : Prop :=
  ∀ a b, s ≤ a → a ≤ b → b ≤ e → A.span a b = b - a + 1

theorem Arith.counts_of_promoted (h : A.promoted = 0) (s e : Nat) : A.Counts s e := by
  intro a b _ _ _
  simp [Arith.span, Arith.expr, h]

/-- A length that is less than the number of values of the type does not wrap. -/
theorem Arith.counts_of_lt (h : e + 1 - s < A.promoted) : A.Counts s e := by
  intro a b hsa hab hbe
  unfold Arith.span Arith.expr
  exact Int.emod_eq_of_lt (by omega) (by omega)

theorem toSize_modEq (x : Int) : (A.toSize x : Int) ≡ x [ZMOD A.size] := by
  have hpos := A.size_pos
  unfold Arith.toSize
  rw [Int.toNat_of_nonneg (Int.emod_nonneg _ (by omega))]
  exact Int.mod_modEq x A.size

theorem toSize_zero : A.toSize 0 = 0 := by
  simp [Arith.toSize]

theorem toSize_lt (x : Int) : A.toSize x < A.size := by
  have hpos := A.size_pos
  have h0 := Int.emod_nonneg x (b := A.size) (by omega)
  have h1 := Int.emod_lt_of_pos x (b := A.size) (by omega)
  unfold Arith.toSize
  omega

theorem eq_of_modEq {m n : Nat} (hm : m < A.size) (hn : n < A.size)
    (h : (m : Int) ≡ n [ZMOD A.size]) : m = n := by
  have hmod : (m : Int) % A.size = n % A.size := h
  rw [Int.emod_eq_of_lt (by omega) (by omega), Int.emod_eq_of_lt (by omega) (by omega)] at hmod
  omega

/-- The overlap so far, less the elements before the start of the interval that is open. -/
def Sweep.level (w : Sweep) : Int :=
  w.overlappingPortion - if w.inside then (w.overlappingStart : Int) else 0

/-- The open interval of the loop is between the start and the end. -/
def Sweep.Between (s e : Nat) (w : Sweep) : Prop :=
  w.inside = true → s ≤ w.overlappingStart ∧ w.overlappingStart ≤ e

theorem add_modEq {w : Sweep} (hc : A.Counts s e) (hs : s ≤ w.overlappingStart) {a : Nat}
    (ha : w.overlappingStart ≤ a) (hae : a ≤ e) :
    (w.add A a : Int) ≡ w.overlappingPortion - w.overlappingStart + (a + 1) [ZMOD A.size] := by
  have hspan := hc w.overlappingStart a hs ha hae
  unfold Sweep.add
  rw [hspan]
  refine (toSize_modEq _).trans ?_
  rw [show (w.overlappingPortion : Int) + ((a : Int) - w.overlappingStart + 1)
    = w.overlappingPortion - w.overlappingStart + (a + 1) by ring]

theorem total_modEq {w : Sweep} (hc : A.Counts s e) (hw : w.Between s e) :
    (w.total A e : Int) ≡ w.level + if w.inside then ((e : Int) + 1) else 0 [ZMOD A.size] := by
  unfold Sweep.total Sweep.level
  cases hin : w.inside with
  | true =>
      obtain ⟨hs, he⟩ := hw hin
      exact add_modEq hc hs he (le_refl e)
  | false => simp

/-- One round of the loop adds the weight of the edge that it removes. -/
theorem sweep_cons (hc : A.Counts s e) {w : Sweep} {v : Edge} (hv : s ≤ v.first ∧ v.first ≤ e)
    (hw : w.Between s e) (hflag : v.second = !w.inside)
    (hle : w.inside = true → w.overlappingStart ≤ v.first) (l : List Edge) :
    ∃ w', sweep A e w (v :: l) = sweep A e w' l ∧ w'.inside = v.second ∧
      (v.second = true → w'.overlappingStart = v.first) ∧
      w'.level ≡ w.level + v.weight [ZMOD A.size] := by
  rw [sweep, if_pos hv.2]
  refine ⟨_, rfl, rfl, ?_, ?_⟩
  · intro hs
    rw [hs, eq_comm, Bool.not_eq_true'] at hflag
    simp [hflag]
  · cases hin : w.inside with
    | true =>
        -- the end of the open interval
        rw [hin, Bool.not_true] at hflag
        simp only [Sweep.level, Edge.weight, hflag, hin, if_true, Bool.false_eq_true, if_false,
          sub_zero]
        exact add_modEq hc (hw hin).1 (hle hin) hv.2
    | false =>
        rw [hin, Bool.not_false] at hflag
        simp [Sweep.level, Edge.weight, hflag, hin, sub_eq_add_neg]

/-- **What the loop counts.** -/
theorem sweep_total (hc : A.Counts s e) (hr : ∀ v ∈ rest, e < v.first) (w : Sweep)
    (hw : w.Between s e) (hchain : mid.IsChain Follows)
    (hhead : ∀ v ∈ mid.head?, v.second = !w.inside)
    (hle : ∀ v ∈ mid.head?, w.inside = true → w.overlappingStart ≤ v.first)
    (hm : ∀ v ∈ mid, s ≤ v.first ∧ v.first ≤ e) :
    ((sweep A e w (mid ++ rest)).1.total A e : Int)
      ≡ w.level + weight mid + if lastFlag w.inside mid then ((e : Int) + 1) else 0
        [ZMOD A.size] := by
  induction mid generalizing w with
  | nil =>
      have hstop : (sweep A e w rest).1 = w := by
        cases rest with
        | nil => rfl
        | cons v rest =>
            have hv : ¬ v.first ≤ e := Nat.not_le.mpr (hr v List.mem_cons_self)
            rw [sweep, if_neg hv]
      rw [List.nil_append, hstop, weight_nil, add_zero]
      exact total_modEq hc hw
  | cons v mid ih =>
      have hv := hm v List.mem_cons_self
      obtain ⟨w', hsweep, hin, hstart, hlevel⟩ :=
        sweep_cons hc hv hw (hhead v rfl) (hle v rfl) (mid ++ rest)
      obtain ⟨hnext, hchain⟩ := List.isChain_cons.mp hchain
      have hw' : w'.Between s e := by
        intro hin'
        rw [hstart (hin.symm.trans hin')]
        exact hv
      have hih := ih w' hw' hchain
        (fun u hu => by rw [hin]; exact (hnext u hu).alternate)
        (fun u hu hin' => by
          rw [hstart (hin.symm.trans hin')]
          exact (hnext u hu).le)
        fun u hu => hm u (List.mem_cons_of_mem _ hu)
      rw [List.cons_append, hsweep, weight_cons, lastFlag_cons, ← hin, ← add_assoc w.level]
      refine hih.trans (Int.ModEq.add_right _ (Int.ModEq.add_right _ hlevel))

/-- The overlap of the interval from `s` to `e` with the stored elements. -/
def overlap (s e : Nat) (pre mid : List Edge) : Int :=
  weight mid - (if lastFlag false pre then (s : Int) else 0) +
    if lastFlag false (pre ++ mid) then ((e : Int) + 1) else 0

/-- `insert` and `erase` count the overlap. -/
theorem Entered.total {mid' : List Edge} {w : Sweep} (hent : Entered s pre mid mid' w)
    (hfresh : w.Fresh s) (h : Split l s e pre mid rest) (hwf : WellFormed l) (hse : s ≤ e)
    (hc : A.Counts s e) :
    ((sweep A e w (mid' ++ rest)).1.total A e : Int) ≡ overlap s e pre mid [ZMOD A.size] := by
  have hwf' := h.wellFormed hwf
  have hmid : ∀ v ∈ mid', s ≤ v.first ∧ v.first ≤ e := fun v hv => h.between v (hent.mem hv)
  have hchain : mid.IsChain Follows := hwf'.chain.left_of_append.right_of_append
  have hlevel : w.level + weight mid'
      = weight mid - if lastFlag false pre then (s : Int) else 0 := by
    unfold Sweep.level
    rcases hent with ⟨rfl, hw⟩ | ⟨rfl, rfl, hw⟩
    · rw [hfresh.1, ← hw]
      cases hin : w.inside with
      | true =>
          rw [hfresh.2 hin, if_pos rfl]
          omega
      | false => simp
    · rw [hfresh.1, hfresh.2 hw, if_pos hw, weight_cons, weight_start]
      simp
  have htotal := sweep_total hc h.after w
    (fun hin => by rw [hfresh.2 hin]; exact ⟨le_refl s, hse⟩)
    (show mid'.IsChain Follows from ?_) ?_
    (fun v hv hin => by rw [hfresh.2 hin]; exact (hmid v (List.mem_of_mem_head? hv)).1) hmid
  · rwa [hlevel, hent.flag] at htotal
  · rcases hent with ⟨rfl, -⟩ | ⟨-, rfl, -⟩
    · exact hchain
    · exact hchain.tail
  · intro v hv
    rcases hent with ⟨rfl, hw⟩ | ⟨-, rfl, hw⟩
    · rw [hw]
      rw [List.append_assoc] at hwf'
      exact hwf'.head_flag (List.mem_head?_append_of_mem_head? hv)
    · rw [hw]
      exact ((List.isChain_cons.mp hchain).1 v hv).alternate

/-! ## The operations -/

/-- `_size` is the sum of the edges. -/
def Sized (A : Arith) (st : IntervalSet) : Prop :=
  (st.size : Int) ≡ weight st.intervals [ZMOD A.size]

/-- A new size that is computed right up to the range of `size_t`. -/
theorem sized_of_modEq {x : Int} (hx : x ≡ weight l [ZMOD A.size]) : Sized A ⟨l, A.toSize x⟩ :=
  (toSize_modEq x).trans hx

variable {st : IntervalSet} {S : Set Nat}

/-- The new size is the old one, changed as much as the sum of the edges. -/
def Changes (A : Arith) (st st' : IntervalSet) : Prop :=
  ∃ d : Int, st'.size = A.toSize (st.size + d) ∧
    d ≡ weight st'.intervals - weight st.intervals [ZMOD A.size]

theorem Sized.changes {st' : IntervalSet} (hsz : Sized A st) (h : Changes A st st') :
    Sized A st' := by
  obtain ⟨d, hsize, hd⟩ := h
  have hnew : (st.size : Int) + d ≡ weight st'.intervals [ZMOD A.size] := by
    have := hsz.add hd
    rwa [add_sub_cancel] at this
  have := sized_of_modEq hnew
  rwa [← hsize] at this

theorem insert_changes (h : Stores A st S) (hse : s ≤ e) (he : A.Holds e) (hc : A.Counts s e)
    (hne : st.intervals ≠ []) : Changes A st (insert A st s e) := by
  have hspan : A.span s e = e - s + 1 := hc s e (le_refl s) hse (le_refl e)
  obtain ⟨pre, mid, rest, hsplit⟩ := exists_split h.wellFormed s e
  obtain ⟨mid', w, hent, hfresh, heq⟩ :=
    insert_eq hsplit h.wellFormed h.holds (he.of_le hse) hse hne
  have htotal := hent.total hfresh hsplit h.wellFormed hse hc
  rw [heq]
  refine ⟨_, rfl, ?_⟩
  have hflag := fun v hv => (hsplit.wellFormed h.wellFormed).head_flag (v := v) hv
  have hnew : weight (openLeft s pre ++ closeRight e (lastFlag false (pre ++ mid)) rest)
      - weight st.intervals = (e : Int) - s + 1 - overlap s e pre mid := by
    rw [hsplit.eq, weight_append, weight_append, weight_append, weight_openLeft,
      weight_closeRight hflag, overlap]
    split_ifs <;> ring
  rw [hnew]
  refine Int.ModEq.sub ?_ htotal
  rw [hspan]
  exact toSize_modEq _

theorem Sized.insert (hsz : Sized A st) (h : Stores A st S) (hse : s ≤ e) (he : A.Holds e)
    (hc : A.Counts s e) : Sized A (insert A st s e) := by
  by_cases hemp : st.intervals = []
  · rw [insert_empty hemp hse]
    apply sized_of_modEq
    rw [hc s e (le_refl s) hse (le_refl e), weight_cons, weight_cons, weight_start, weight_end,
      weight_nil]
    exact congrArg (· % (A.size : Int)) (by ring)
  · exact hsz.changes (insert_changes h hse he hc hemp)

theorem Sized.erase (hsz : Sized A st) (h : Stores A st S) (hse : s ≤ e) (he : A.Holds e)
    (hc : A.Counts s e) : Sized A (erase A st s e) := by
  obtain ⟨pre, mid, rest, hsplit⟩ := exists_split h.wellFormed s e
  by_cases hnil : mid ++ rest = []
  · rw [erase_behind hsplit hnil]
    exact hsz
  · obtain ⟨w, hw, hfresh, heq⟩ :=
      erase_eq hsplit h.wellFormed h.holds (he.of_le hse) hse hnil
    have hent : Entered s pre mid mid w := Or.inl ⟨rfl, hw⟩
    have htotal := hent.total hfresh hsplit h.wellFormed hse hc
    rw [heq]
    apply sized_of_modEq
    have hnew : weight st.intervals - overlap s e pre mid
        = weight (closeLeft s pre ++ openRight e (lastFlag false (pre ++ mid)) rest) := by
      rw [hsplit.eq, weight_append, weight_append, weight_append,
        weight_closeLeft hsplit.before, weight_openRight, overlap]
      ring
    rw [← hnew]
    exact hsz.sub htotal

theorem size_lt_insert : (insert A st s e).size < A.size := by
  unfold insert
  split
  · exact toSize_lt _
  · exact toSize_lt _

theorem size_lt_erase (h : Stores A st S) (hlt : st.size < A.size)
    (hse : s ≤ e) (he : A.Holds e) : (erase A st s e).size < A.size := by
  obtain ⟨pre, mid, rest, hsplit⟩ := exists_split h.wellFormed s e
  by_cases hnil : mid ++ rest = []
  · rwa [erase_behind hsplit hnil]
  · obtain ⟨w, -, -, heq⟩ := erase_eq hsplit h.wellFormed h.holds (he.of_le hse) hse hnil
    rw [heq]
    exact toSize_lt _

/-! ## Runs -/

/-- The interval of an operation can be counted. -/
def Op.Counts : Op A → Prop
  | .insert a b _ _ => A.Counts a b
  | .erase a b _ _ => A.Counts a b
  | .insertElement a _ => A.Counts a a
  | .eraseElement a _ => A.Counts a a
  | .clear => True

theorem Sized.apply (hsz : Sized A st) (h : Stores A st S) {op : Op A} (hc : op.Counts) :
    Sized A (apply st op) := by
  cases op with
  | insert a b hab hb => exact hsz.insert h hab hb hc
  | erase a b hab hb => exact hsz.erase h hab hb hc
  | insertElement a ha => exact hsz.insert h (le_refl a) ha hc
  | eraseElement a ha => exact hsz.erase h (le_refl a) ha hc
  | clear => rfl

theorem size_lt_apply (h : Stores A st S) (hlt : st.size < A.size) (op : Op A) :
    (apply st op).size < A.size := by
  cases op with
  | insert a b hab hb => exact size_lt_insert
  | erase a b hab hb => exact size_lt_erase h hlt hab hb
  | insertElement a ha => exact size_lt_insert
  | eraseElement a ha => exact size_lt_erase h hlt (le_refl a) ha
  | clear => exact A.size_pos

theorem run_concat (ops : List (Op A)) (op : Op A) : run (ops ++ [op]) = apply (run ops) op := by
  simp [run]

theorem size_lt_run (ops : List (Op A)) : (run ops).size < A.size := by
  induction ops using List.reverseRecOn with
  | nil => exact A.size_pos
  | append_singleton ops op ih =>
      rw [run_concat]
      exact size_lt_apply (stores_run ops) ih op

theorem sized_run (ops : List (Op A)) (hc : ∀ op ∈ ops, op.Counts) : Sized A (run ops) := by
  induction ops using List.reverseRecOn with
  | nil => rfl
  | append_singleton ops op ih =>
      rw [run_concat]
      apply Sized.apply
      · exact ih fun op' hop => hc op' (List.mem_append_left _ hop)
      · exact stores_run ops
      · exact hc op (by simp)

theorem Op.counts_of_promoted (h : A.promoted = 0) (op : Op A) : op.Counts := by
  cases op with
  | insert a b _ _ => exact Arith.counts_of_promoted h a b
  | erase a b _ _ => exact Arith.counts_of_promoted h a b
  | insertElement a _ => exact Arith.counts_of_promoted h a a
  | eraseElement a _ => exact Arith.counts_of_promoted h a a
  | clear => trivial

/-- `size` is the number of elements that exist, and `empty` says whether there is none. -/
def Accounts (st : IntervalSet) : Prop :=
  ∃ F : Finset Nat, (∀ x, x ∈ F ↔ st.exists x = true) ∧ st.size = F.card ∧
    (st.empty = true ↔ ∀ x, st.exists x = false)

theorem card_eq_weight (h : WellFormed st.intervals) {F : Finset Nat}
    (hF : ∀ x, x ∈ F ↔ st.exists x = true) : (F.card : Int) = weight st.intervals := by
  obtain ⟨F', hF', hcard⟩ := exists_elements h
  have heq : F = F' := Finset.ext fun x => by rw [hF, hF', exists_eq_cover h]
  rw [heq, hcard]

theorem accounts_iff (h : WellFormed st.intervals) :
    Accounts st ↔ (st.size : Int) = weight st.intervals := by
  constructor
  · rintro ⟨F, hF, hsize, -⟩
    rw [hsize, card_eq_weight h hF]
  · intro heq
    obtain ⟨F, hF, hcard⟩ := exists_elements h
    have hmem : ∀ x, x ∈ F ↔ st.exists x = true := by
      intro x
      rw [hF, exists_eq_cover h]
    have hsize : st.size = F.card := by omega
    refine ⟨F, hmem, hsize, ?_⟩
    rw [empty, decide_eq_true_iff, hsize, Finset.card_eq_zero,
      Finset.eq_empty_iff_forall_notMem]
    refine forall_congr' fun x => ?_
    rw [hmem, Bool.not_eq_true]

/-- A size that is right up to the range of `size_t` is right exactly if the elements are fewer. -/
theorem Sized.eq_weight_iff (hsz : Sized A st) (h : WellFormed st.intervals)
    (hlt : st.size < A.size) : (st.size : Int) = weight st.intervals ↔
      weight st.intervals < A.size := by
  constructor
  · intro heq
    omega
  · intro hfew
    obtain ⟨F, -, hcard⟩ := exists_elements h
    have hmod : (st.size : Int) ≡ F.card [ZMOD A.size] := hcard ▸ hsz
    rw [eq_of_modEq hlt (by omega) hmod, hcard]

/-- **`_size` is the number of elements.** For elements with the semantics of the natural numbers
and any sequence of operations, `size` is the number of elements that exist exactly if `size_t` has
a value for it, and then `empty` says whether there is none. -/
theorem size_accounting (ops : List (Op A)) (hc : ∀ op ∈ ops, op.Counts) :
    ∃ F : Finset Nat, (∀ x, x ∈ F ↔ (run ops).exists x = true) ∧
      ((run ops).size = F.card ↔ F.card < A.size) ∧
      (F.card < A.size → ((run ops).empty = true ↔ ∀ x, (run ops).exists x = false)) := by
  have hwf := (stores_run ops).wellFormed
  have hiff := (sized_run ops hc).eq_weight_iff hwf (size_lt_run ops)
  obtain ⟨F, hF, hcard⟩ := exists_elements hwf
  have hmem : ∀ x, x ∈ F ↔ (run ops).exists x = true := by
    intro x
    rw [hF, exists_eq_cover hwf]
  rw [← hcard, Int.ofNat_inj, Int.ofNat_lt] at hiff
  refine ⟨F, hmem, hiff, fun hlt => ?_⟩
  obtain ⟨F', hF', -, hempty⟩ := (accounts_iff hwf).mpr
    ((congrArg Int.ofNat (hiff.mpr hlt)).trans hcard)
  exact hempty

/-- Three elements of the natural numbers, of which one is erased. -/
theorem size_accounting_natural :
    ∃ ops : List (Op (Arith.natural 64)), (∀ op ∈ ops, op.Counts) ∧ ops.length = 2 ∧
      (run ops).size = 2 ∧ ∃ F : Finset Nat, (∀ x, x ∈ F ↔ (run ops).exists x = true) ∧
        ((run ops).size = F.card ↔ F.card < (Arith.natural 64).size) := by
  refine ⟨[.insert 1 3 (by decide) (Or.inl rfl), .eraseElement 2 (Or.inl rfl)], ?_, rfl,
    by decide, ?_⟩
  · exact fun op _ => Op.counts_of_promoted rfl op
  · obtain ⟨F, hF, hsize, -⟩ := size_accounting (A := Arith.natural 64)
      [.insert 1 3 (by decide) (Or.inl rfl), .eraseElement 2 (Or.inl rfl)]
      fun op _ => Op.counts_of_promoted rfl op
    exact ⟨F, hF, hsize⟩

/-- All elements of `uint64_t`, in two intervals whose lengths do not wrap, are too many for
`size_t`. -/
theorem size_wraps :
    ∃ ops : List (Op (Arith.unsigned 64 32 64)),
      ops = [.insert 0 (2 ^ 64 - 2) (by decide) (by decide),
        .insertElement (2 ^ 64 - 1) (by decide)] ∧
      (∀ op ∈ ops, op.Counts) ∧ (run ops).size = 0 ∧ (run ops).empty = true ∧
      (run ops).exists 7 = true := by
  refine ⟨_, rfl, ?_, by decide, by decide, by decide⟩
  rw [List.forall_mem_cons, List.forall_mem_singleton]
  exact ⟨Arith.counts_of_lt (by decide), Arith.counts_of_lt (by decide)⟩

end Lunchbox.IntervalSet
