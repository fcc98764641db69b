import Lunchbox.IntervalSet.Edges

set_option autoImplicit false

/-! # `IntervalSet` implements set algebra

`insert` and `erase` keep the edges well formed, and the elements between the edges (`cover`)
are the union and the difference with the interval. `find` and `exists` decide that
membership. By induction over the operations, an interval set stores the set that the same
unions and differences give.
-/

namespace Lunchbox.IntervalSet

variable {A : Arith} {l pre mid rest : List Edge} {s e : Nat}

/-! ## The sides of an inserted interval -/

theorem openLeft_spec (h : WellFormed (pre ++ rest)) (hp : ∀ x ∈ pre, x.first < s) :
    (openLeft s pre).IsChain Follows ∧ (∀ x ∈ (openLeft s pre).head?, x.second = true) ∧
      ∃ u ≤ s, (openLeft s pre).getLast? = some ⟨u, true⟩ := by
  have hchain := h.chain.left_of_append
  rcases List.eq_nil_or_concat' pre with rfl | ⟨q, ⟨v, b⟩, rfl⟩
  · rw [openLeft_nil]
    exact ⟨.singleton _, by simp, s, le_refl s, rfl⟩
  have hv : v < s := hp ⟨v, b⟩ (by simp)
  have hhead : ∀ x ∈ (q ++ [(⟨v, b⟩ : Edge)]).head?, x.second = true := by
    intro x hx
    exact h.head x (List.mem_head?_append_of_mem_head? hx)
  cases b with
  | true =>
      rw [openLeft_start]
      exact ⟨hchain, hhead, v, Nat.le_of_lt hv, by simp⟩
  | false =>
      by_cases ha : v + 1 = s
      · -- the previous interval is continued: its start comes before the removed end
        subst ha
        rw [openLeft_touching]
        rcases List.eq_nil_or_concat' q with rfl | ⟨q', u, rfl⟩
        · have := hhead ⟨v, false⟩ rfl
          cases this
        · obtain ⟨hq, -, hlast⟩ := List.isChain_append.mp hchain
          have hu := hlast u (by simp) ⟨v, false⟩ (by simp)
          have hus : u.second = true := by
            have := hu.alternate
            rwa [eq_comm, Bool.not_eq_false'] at this
          refine ⟨hq, ?_, u.first, Nat.le_succ_of_le hu.le, ?_⟩
          · intro x hx
            exact hhead x (List.mem_head?_append_of_mem_head? hx)
          · rw [← hus]
            simp
      · rw [openLeft_apart ha]
        refine ⟨?_, ?_, s, le_refl s, by simp⟩
        · rw [List.isChain_append]
          refine ⟨hchain, .singleton _, ?_⟩
          intro x hx y hy
          simp only [List.getLast?_append, List.getLast?_singleton, Option.some_or,
            Option.mem_some] at hx
          simp only [List.head?_cons, Option.mem_some] at hy
          subst hx hy
          exact follows_end.mpr ⟨rfl, by show v + 2 ≤ s; omega⟩
        · intro x hx
          refine hhead x ?_
          rwa [List.head?_append_of_ne_nil _ (by simp)] at hx

theorem closeRight_spec (h : WellFormed (pre ++ rest)) (hr : ∀ x ∈ rest, e < x.first) :
    (closeRight e (lastFlag false pre) rest).IsChain Follows ∧
      (∀ x ∈ (closeRight e (lastFlag false pre) rest).getLast?, x.second = false) ∧
      ∃ u ≥ e, (closeRight e (lastFlag false pre) rest).head? = some ⟨u, false⟩ := by
  have hchain := h.chain.right_of_append
  have hlast : ∀ x ∈ rest.getLast?, x.second = false := fun x hx =>
    h.last x (List.mem_getLast?_append_of_mem_getLast? hx)
  by_cases hfuse : ∃ v ∈ rest.head?, v = ⟨e + 1, true⟩
  · -- the next interval is continued: its end comes after the removed start
    obtain ⟨v, hv, rfl⟩ := hfuse
    obtain ⟨r, rfl⟩ : ∃ r, rest = ⟨e + 1, true⟩ :: r := List.head?_eq_some_iff.mp hv
    rw [closeRight_touching]
    cases r with
    | nil =>
        have := hlast ⟨e + 1, true⟩ rfl
        cases this
    | cons y r =>
        rw [List.isChain_cons_cons, follows_start] at hchain
        obtain ⟨⟨hy, hle⟩, hchain⟩ := hchain
        refine ⟨hchain, fun x hx => hlast x ?_, y.first, Nat.le_of_succ_le hle, ?_⟩
        · rwa [List.getLast?_cons_cons]
        · rw [← hy]
          rfl
  · have hno : ∀ v ∈ rest.head?, v ≠ ⟨e + 1, true⟩ := fun v hv he => hfuse ⟨v, hv, he⟩
    rw [closeRight_apart hno]
    cases hb : lastFlag false pre with
    | true =>
        obtain ⟨v, r, rfl⟩ := List.exists_cons_of_ne_nil (h.ne_nil_of_inside hb)
        have hv : v.second = false := by
          rw [h.head_flag (v := v) rfl, hb]
          rfl
        refine ⟨hchain, hlast, v.first, Nat.le_of_lt (hr v List.mem_cons_self), ?_⟩
        rw [← hv]
        rfl
    | false =>
        refine ⟨List.isChain_cons.mpr ⟨?_, hchain⟩, ?_, e, le_refl e, rfl⟩
        · intro v hv
          have hvs : v.second = true := by
            rw [h.head_flag hv, hb]
            rfl
          have hve := hr v (List.mem_of_mem_head? hv)
          refine follows_end.mpr ⟨hvs, ?_⟩
          have hne : v.first ≠ e + 1 := fun he => hno v hv (by rw [← he, ← hvs])
          omega
        · intro x hx
          cases rest with
          | nil => cases hx; rfl
          | cons v r => exact hlast x (by rwa [if_neg (by decide), List.getLast?_cons_cons] at hx)

theorem wellFormed_insert (h : Split l s e pre mid rest) (hwf : WellFormed l) (hse : s ≤ e) :
    WellFormed (openLeft s pre ++ closeRight e (lastFlag false (pre ++ mid)) rest) := by
  have hl := h.eq
  subst hl
  obtain ⟨hL, hhead, u, hu, hlast⟩ := openLeft_spec hwf h.before
  rw [← List.append_assoc] at hwf
  obtain ⟨hR, hend, u', hu', hfirst⟩ := closeRight_spec hwf h.after
  refine ⟨List.isChain_append.mpr ⟨hL, hR, ?_⟩, ?_, ?_⟩
  · intro x hx y hy
    rw [hlast, Option.mem_some] at hx
    rw [hfirst, Option.mem_some] at hy
    subst hx hy
    exact follows_start.mpr ⟨rfl, le_trans hu (le_trans hse hu')⟩
  · intro x hx
    rw [List.head?_append_of_ne_nil] at hx
    · exact hhead x hx
    · rintro hnil
      rw [hnil] at hlast
      cases hlast
  · intro x hx
    rw [List.getLast?_append_of_ne_nil] at hx
    · exact hend x hx
    · rintro hnil
      rw [hnil] at hfirst
      cases hfirst

/-! ## The sides of a removed interval -/

theorem closeLeft_spec (h : WellFormed (pre ++ rest)) (hp : ∀ x ∈ pre, x.first < s) :
    (closeLeft s pre).IsChain Follows ∧ (∀ x ∈ (closeLeft s pre).head?, x.second = true) ∧
      ∀ x ∈ (closeLeft s pre).getLast?, x.second = false ∧ x.first < s := by
  have hchain := h.chain.left_of_append
  have hhead : ∀ x ∈ pre.head?, x.second = true := fun x hx =>
    h.head x (List.mem_head?_append_of_mem_head? hx)
  unfold closeLeft
  rcases List.eq_nil_or_concat' pre with rfl | ⟨q, v, rfl⟩
  · exact ⟨.nil, by simp, by simp⟩
  have hv : v.first < s := hp v (by simp)
  have hflag : lastFlag false (q ++ [v]) = v.second := by
    rw [lastFlag_append]
    rfl
  rw [hflag]
  cases hb : v.second with
  | true =>
      -- the interval that is open before `s` is closed with the end `s - 1`
      rw [if_pos rfl]
      refine ⟨?_, ?_, ?_⟩
      · rw [List.isChain_append]
        refine ⟨hchain, .singleton _, ?_⟩
        intro x hx y hy
        have hxv : v = x := by simpa using hx
        have hy' : ⟨s - 1, false⟩ = y := by simpa using hy
        subst hxv hy'
        unfold Follows
        rw [if_pos hb]
        exact ⟨rfl, Nat.le_sub_one_of_lt hv⟩
      · intro x hx
        rw [List.head?_append_of_ne_nil _ (by simp)] at hx
        exact hhead x hx
      · intro x hx
        have hx' : ⟨s - 1, false⟩ = x := by simpa using hx
        subst hx'
        exact ⟨rfl, Nat.sub_one_lt (Nat.ne_of_gt (Nat.zero_lt_of_lt hv))⟩
  | false =>
      rw [if_neg (by decide)]
      refine ⟨hchain, hhead, ?_⟩
      intro x hx
      have hxv : v = x := by simpa using hx
      subst hxv
      exact ⟨hb, hv⟩

theorem openRight_spec (h : WellFormed (pre ++ rest)) (hr : ∀ x ∈ rest, e < x.first) :
    (openRight e (lastFlag false pre) rest).IsChain Follows ∧
      (∀ x ∈ (openRight e (lastFlag false pre) rest).getLast?, x.second = false) ∧
      ∀ x ∈ (openRight e (lastFlag false pre) rest).head?, x.second = true ∧ e < x.first := by
  have hchain := h.chain.right_of_append
  have hlast : ∀ x ∈ rest.getLast?, x.second = false := fun x hx =>
    h.last x (List.mem_getLast?_append_of_mem_getLast? hx)
  unfold openRight
  cases hb : lastFlag false pre with
  | true =>
      -- the rest begins with the end of an interval, which gets the new start `e + 1`
      rw [if_pos rfl]
      obtain ⟨v, r, rfl⟩ := List.exists_cons_of_ne_nil (h.ne_nil_of_inside hb)
      have hv : v.second = false := by
        rw [h.head_flag (v := v) rfl, hb]
        rfl
      refine ⟨List.isChain_cons_cons.mpr ⟨?_, hchain⟩, ?_, ?_⟩
      · exact follows_start.mpr ⟨hv, hr v List.mem_cons_self⟩
      · rwa [List.getLast?_cons_cons]
      · intro x hx
        cases hx
        exact ⟨rfl, Nat.lt_succ_self e⟩
  | false =>
      rw [if_neg (by decide)]
      refine ⟨hchain, hlast, fun x hx => ⟨?_, hr x (List.mem_of_mem_head? hx)⟩⟩
      rw [h.head_flag hx, hb]
      rfl

theorem wellFormed_erase (h : Split l s e pre mid rest) (hwf : WellFormed l) (hse : s ≤ e) :
    WellFormed (closeLeft s pre ++ openRight e (lastFlag false (pre ++ mid)) rest) := by
  have hl := h.eq
  subst hl
  obtain ⟨hL, hhead, hlast⟩ := closeLeft_spec hwf h.before
  rw [← List.append_assoc] at hwf
  obtain ⟨hR, hend, hfirst⟩ := openRight_spec hwf h.after
  refine ⟨List.isChain_append.mpr ⟨hL, hR, ?_⟩, ?_, ?_⟩
  · intro x hx y hy
    obtain ⟨hxs, hx⟩ := hlast x hx
    obtain ⟨hys, hy⟩ := hfirst y hy
    unfold Follows
    rw [hxs, if_neg (by decide)]
    exact ⟨hys, by omega⟩
  · intro x hx
    rw [List.head?_append, Option.mem_def, Option.or_eq_some_iff] at hx
    rcases hx with hx | ⟨-, hx⟩
    · exact hhead x hx
    · exact (hfirst x hx).1
  · intro x hx
    rw [List.getLast?_append, Option.mem_def, Option.or_eq_some_iff] at hx
    rcases hx with hx | ⟨-, hx⟩
    · exact hend x hx
    · exact (hlast x hx).1

/-! ## Membership -/

/-- The edge comes before the element: starts up to `x`, ends before `x`. -/
def Active (x : Nat) (v : Edge) : Prop := edgeCompare v ⟨x, false⟩ = true

/-- The flag of the last edge before the element `x`. -/
def cover (x : Nat) (b : Bool) (l : List Edge) : Bool :=
  l.foldl (fun b v => if edgeCompare v ⟨x, false⟩ then v.second else b) b

theorem cover_append (x : Nat) (b : Bool) (l l' : List Edge) :
    cover x b (l ++ l') = cover x (cover x b l) l' := by
  simp [cover]

theorem cover_active {x : Nat} (b : Bool) (h : ∀ v ∈ l, Active x v) :
    cover x b l = lastFlag b l := by
  induction l generalizing b with
  | nil => rfl
  | cons v l ih =>
      have hv : edgeCompare v ⟨x, false⟩ = true := h v List.mem_cons_self
      show cover x (if edgeCompare v ⟨x, false⟩ then v.second else b) l = lastFlag v.second l
      rw [if_pos hv]
      exact ih v.second fun u hu => h u (List.mem_cons_of_mem v hu)

theorem cover_inactive {x : Nat} (b : Bool) (h : ∀ v ∈ l, ¬ Active x v) : cover x b l = b := by
  induction l generalizing b with
  | nil => rfl
  | cons v l ih =>
      have hv : ¬ edgeCompare v ⟨x, false⟩ = true := h v List.mem_cons_self
      show cover x (if edgeCompare v ⟨x, false⟩ then v.second else b) l = b
      rw [if_neg hv]
      exact ih b fun u hu => h u (List.mem_cons_of_mem v hu)

theorem active_of_lt {x : Nat} {v : Edge} (h : v.first < x) : Active x v := edgeCompare_of_lt h

theorem not_active_of_gt {x : Nat} {v : Edge} (h : x < v.first) : ¬ Active x v := by
  rw [Active, edgeCompare_of_gt h]
  decide

theorem active_start {x a : Nat} : Active x ⟨a, true⟩ ↔ a ≤ x := by
  rw [Active, edgeCompare_end]
  simp only [and_true]
  omega

theorem active_end {x a : Nat} : Active x ⟨a, false⟩ ↔ a < x := by
  rw [Active, edgeCompare_end]
  simp

variable {x : Nat}

theorem cover_single_start {a : Nat} {b : Bool} (h : a ≤ x) : cover x b [⟨a, true⟩] = true := by
  rw [cover_active]
  · rfl
  · intro v hv
    rw [List.mem_singleton.mp hv]
    exact active_start.mpr h

theorem cover_single_end {a : Nat} {b : Bool} (h : a < x) : cover x b [⟨a, false⟩] = false := by
  rw [cover_active]
  · rfl
  · intro v hv
    rw [List.mem_singleton.mp hv]
    exact active_end.mpr h

/-- The elements of an interval and of edges that come after it. -/
theorem cover_bounds {a c : Nat} (hl : ∀ v ∈ l, c + 2 ≤ v.first) :
    cover x false (⟨a, true⟩ :: ⟨c, false⟩ :: l) = true ↔
      (a ≤ x ∧ x ≤ c) ∨ cover x false l = true := by
  rw [← List.singleton_append, ← List.singleton_append (x := (⟨c, false⟩ : Edge)), cover_append,
    cover_append]
  by_cases hx : x ≤ c
  · -- the later edges do not count
    have hrest : ∀ b, cover x b l = b := fun b => cover_inactive b fun v hv =>
      not_active_of_gt (lt_of_le_of_lt hx (by have := hl v hv; omega))
    have hend : ∀ b, cover x b [⟨c, false⟩] = b := fun b => cover_inactive b fun v hv => by
      rw [List.mem_singleton.mp hv, active_end]
      exact Nat.not_lt.mpr hx
    rw [hrest, hend, hrest]
    by_cases ha : a ≤ x
    · simp [cover_single_start ha, ha, hx]
    · have hstart : cover x false [⟨a, true⟩] = false := cover_inactive false fun v hv => by
        rw [List.mem_singleton.mp hv, active_start]
        exact ha
      simp [hstart, ha]
  · rw [cover_single_end (Nat.lt_of_not_le hx)]
    simp [hx]

theorem le_of_cover {m : Nat} (hl : ∀ v ∈ l, m ≤ v.first) (hc : cover x false l = true) :
    m ≤ x := by
  by_contra hlt
  rw [cover_inactive] at hc
  · cases hc
  · intro v hv
    exact not_active_of_gt (lt_of_lt_of_le (Nat.lt_of_not_le hlt) (hl v hv))

theorem cover_before (h : Split l s e pre mid rest) (hse : s ≤ e) (hx : x < s) :
    cover x false l = cover x false pre := by
  rw [h.eq, cover_append]
  refine cover_inactive _ fun v hv => not_active_of_gt ?_
  exact lt_of_lt_of_le hx (h.suffix_ge hse v hv)

theorem cover_after (h : Split l s e pre mid rest) (hse : s ≤ e) (hx : e < x) :
    cover x false l = cover x (lastFlag false (pre ++ mid)) rest := by
  rw [h.eq, ← List.append_assoc, cover_append]
  congr 1
  refine cover_active _ fun v hv => active_of_lt ?_
  rcases List.mem_append.mp hv with hv | hv
  · exact lt_trans (lt_of_lt_of_le (h.before v hv) hse) hx
  · exact lt_of_le_of_lt (h.between v hv).2 hx

/-- Before the start, adding the start changes nothing. -/
theorem cover_openLeft_before (hx : x < s) :
    cover x false (openLeft s pre) = cover x false pre := by
  rcases List.eq_nil_or_concat' pre with rfl | ⟨q, ⟨v, b⟩, rfl⟩
  · rw [openLeft_nil]
    refine cover_inactive false fun u hu => ?_
    rw [List.mem_singleton.mp hu, active_start]
    exact Nat.not_le.mpr hx
  cases b with
  | true => rw [openLeft_start]
  | false =>
      by_cases ha : v + 1 = s
      · subst ha
        rw [openLeft_touching, cover_append]
        refine (cover_inactive _ fun u hu => ?_).symm
        rw [List.mem_singleton.mp hu, active_end]
        exact Nat.not_lt.mpr (Nat.le_of_lt_succ hx)
      · rw [openLeft_apart ha, cover_append _ _ (q ++ _)]
        refine cover_inactive _ fun u hu => ?_
        rw [List.mem_singleton.mp hu, active_start]
        exact Nat.not_le.mpr hx

/-- From the start on, the edges up to the start say that the element is inside. -/
theorem cover_openLeft (h : WellFormed (pre ++ rest)) (hp : ∀ v ∈ pre, v.first < s)
    (hx : s ≤ x) : cover x false (openLeft s pre) = true := by
  rw [cover_active]
  · obtain ⟨-, -, u, -, hlast⟩ := openLeft_spec h hp
    obtain ⟨q, hq⟩ := List.getLast?_eq_some_iff.mp hlast
    rw [hq, lastFlag_append]
    rfl
  · intro v hv
    rcases mem_openLeft hv with hv | rfl
    · exact active_of_lt (lt_of_lt_of_le (hp v hv) hx)
    · exact active_start.mpr hx

theorem mem_closeRight {b : Bool} {v : Edge} (hv : v ∈ closeRight e b rest) :
    v ∈ rest ∨ v = ⟨e, false⟩ := by
  unfold closeRight at hv
  split_ifs at hv
  · exact Or.inl (List.mem_of_mem_tail hv)
  · exact Or.inl hv
  · exact (List.mem_cons.mp hv).symm

/-- After the end, adding the end gives back what was there. -/
theorem cover_closeRight (h : WellFormed (pre ++ rest)) (hx : e < x) :
    cover x true (closeRight e (lastFlag false pre) rest)
      = cover x (lastFlag false pre) rest := by
  by_cases hfuse : ∃ v ∈ rest.head?, v = ⟨e + 1, true⟩
  · obtain ⟨v, hv, rfl⟩ := hfuse
    obtain ⟨r, rfl⟩ : ∃ r, rest = ⟨e + 1, true⟩ :: r := List.head?_eq_some_iff.mp hv
    rw [closeRight_touching, ← List.singleton_append, cover_append, cover_single_start hx]
  · have hno : ∀ v ∈ rest.head?, v ≠ ⟨e + 1, true⟩ := fun v hv he => hfuse ⟨v, hv, he⟩
    rw [closeRight_apart hno]
    cases lastFlag false pre with
    | true => rfl
    | false =>
        rw [if_neg (by decide), ← List.singleton_append, cover_append, cover_single_end hx]

/-- **Insertion is union with the interval.** -/
theorem cover_insert (h : Split l s e pre mid rest) (hwf : WellFormed l) (hse : s ≤ e) :
    cover x false (openLeft s pre ++ closeRight e (lastFlag false (pre ++ mid)) rest) = true ↔
      cover x false l = true ∨ s ≤ x ∧ x ≤ e := by
  rw [h.eq] at hwf
  rw [cover_append]
  -- up to the end of the interval, the edges after it do not count
  have hright : x ≤ e → ∀ b, cover x b (closeRight e (lastFlag false (pre ++ mid)) rest) = b := by
    intro hxe b
    refine cover_inactive b fun v hv => ?_
    rcases mem_closeRight hv with hv | rfl
    · exact not_active_of_gt (lt_of_le_of_lt hxe (h.after v hv))
    · rw [active_end]
      exact Nat.not_lt.mpr hxe
  by_cases hxs : x < s
  · rw [cover_openLeft_before hxs, hright (by omega), cover_before h hse hxs]
    constructor
    · exact Or.inl
    · rintro (hc | hc)
      · exact hc
      · omega
  rw [cover_openLeft hwf h.before (Nat.le_of_not_lt hxs)]
  by_cases hxe : x ≤ e
  · rw [hright hxe]
    simp [Nat.le_of_not_lt hxs, hxe]
  · rw [← List.append_assoc] at hwf
    rw [cover_closeRight hwf (Nat.lt_of_not_le hxe), cover_after h hse (Nat.lt_of_not_le hxe)]
    constructor
    · exact Or.inl
    · rintro (hc | hc)
      · exact hc
      · exact absurd hc.2 hxe

theorem cover_closeLeft_before (hx : x < s) :
    cover x false (closeLeft s pre) = cover x false pre := by
  unfold closeLeft
  split_ifs
  · rw [cover_append]
    refine cover_inactive _ fun v hv => ?_
    rw [List.mem_singleton.mp hv, active_end]
    exact Nat.not_lt.mpr (Nat.le_sub_one_of_lt hx)
  · rfl

/-- From the start on, the edges before the start say that the element is outside. -/
theorem cover_closeLeft (hp : ∀ v ∈ pre, v.first < s) (hx : s ≤ x) :
    cover x false (closeLeft s pre) = false := by
  have hpre : cover x false pre = lastFlag false pre :=
    cover_active false fun v hv => active_of_lt (lt_of_lt_of_le (hp v hv) hx)
  unfold closeLeft
  split_ifs with hb
  · -- an edge before the start exists, so `s - 1` is below `x`
    obtain ⟨v, hv⟩ : ∃ v, v ∈ pre := by
      cases pre with
      | nil => cases hb
      | cons v _ => exact ⟨v, List.mem_cons_self⟩
    have := hp v hv
    rw [cover_append]
    exact cover_single_end (by omega)
  · rw [hpre]
    simpa using hb

theorem mem_openRight {b : Bool} {v : Edge} (hv : v ∈ openRight e b rest) :
    v ∈ rest ∨ v = ⟨e + 1, true⟩ := by
  unfold openRight at hv
  split_ifs at hv
  · exact (List.mem_cons.mp hv).symm
  · exact Or.inl hv

theorem cover_openRight {b : Bool} (hx : e < x) :
    cover x false (openRight e b rest) = cover x b rest := by
  unfold openRight
  cases b with
  | true => rw [if_pos rfl, ← List.singleton_append, cover_append, cover_single_start hx]
  | false => rw [if_neg (by decide)]

/-- **Removal is difference with the interval.** -/
theorem cover_erase (h : Split l s e pre mid rest) (hse : s ≤ e) :
    cover x false (closeLeft s pre ++ openRight e (lastFlag false (pre ++ mid)) rest) = true ↔
      cover x false l = true ∧ ¬ (s ≤ x ∧ x ≤ e) := by
  rw [cover_append]
  have hright : x ≤ e → ∀ b, cover x b (openRight e (lastFlag false (pre ++ mid)) rest) = b := by
    intro hxe b
    refine cover_inactive b fun v hv => ?_
    rcases mem_openRight hv with hv | rfl
    · exact not_active_of_gt (lt_of_le_of_lt hxe (h.after v hv))
    · rw [active_start]
      omega
  by_cases hxs : x < s
  · rw [cover_closeLeft_before hxs, hright (by omega), cover_before h hse hxs]
    constructor
    · intro hc
      exact ⟨hc, by omega⟩
    · exact fun hc => hc.1
  rw [cover_closeLeft h.before (Nat.le_of_not_lt hxs)]
  by_cases hxe : x ≤ e
  · rw [hright hxe]
    simp [Nat.le_of_not_lt hxs, hxe]
  · rw [cover_openRight (Nat.lt_of_not_le hxe), cover_after h hse (Nat.lt_of_not_le hxe)]
    constructor
    · intro hc
      exact ⟨hc, fun hx => hxe hx.2⟩
    · exact fun hc => hc.1

end Lunchbox.IntervalSet
