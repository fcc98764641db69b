import Mathlib.Tactic

set_option autoImplicit false

/-! # `Clock::set`

The clock (`clock.cpp`) without `__APPLE__` and `_WIN32`: it keeps the time at which it was zero,
and `set` moves this time to so many milliseconds before now. Signed arithmetic that overflows is
not defined (`none`), the conversion to `int` keeps the lower 32 bits.

The seconds are rounded up and the nanoseconds are what is missing, so that one carry is enough for
times that are not negative; but a sum of exactly one second is not carried, the division of a
negative time rounds towards zero, and `sec * 1000` is an `int`. `set_exact_iff` says for which
times the result is exact.
-/

namespace Lunchbox.Clock

/-! ## Signed integers -/

/-- The values of a signed type of `w + 1` bits. -/
def InSigned (w : Nat) (x : Int) : Prop := -2 ^ w ≤ x ∧ x < 2 ^ w

instance (w : Nat) (x : Int) : Decidable (InSigned w x) :=
  inferInstanceAs (Decidable (_ ∧ _))

/-- The result of an operation in such a type. -/
def signed (w : Nat) (x : Int) : Option Int := if InSigned w x then some x else none

/-- An `int` -/
def int (x : Int) : Option Int := signed 31 x

/-- An `int64_t`, a `time_t` or a `long` -/
def int64 (x : Int) : Option Int := signed 63 x

/-- `static_cast<int>` -/
def toInt (x : Int) : Int := Int.bmod x (2 ^ 32)

theorem signed_eq_some {w : Nat} {x y : Int} : signed w x = some y ↔ InSigned w x ∧ y = x := by
  unfold signed
  split_ifs with h
  · rw [Option.some_inj]
    exact ⟨fun he => ⟨h, he.symm⟩, fun he => he.2.symm⟩
  · exact ⟨fun he => (nomatch he), fun he => absurd he.1 h⟩

theorem toInt_of {x : Int} (h : InSigned 31 x) : toInt x = x := by
  obtain ⟨h1, h2⟩ := h
  exact Int.bmod_eq_of_le (by omega) (by omega)

theorem inSigned_toInt (x : Int) : InSigned 31 (toInt x) := by
  have h1 := Int.le_bmod (x := x) (m := 2 ^ 32) (by decide)
  have h2 := Int.bmod_lt (x := x) (m := 2 ^ 32) (by decide)
  unfold InSigned toInt
  omega

/-! ## The function -/

/-- `struct timespec` -/
structure Timespec where
  sec : Int
  nsec : Int

/-- What is subtracted from the seconds and from the nanoseconds. -/
def split (time : Int) : Option (Int × Int) := do
  let sec ← int (toInt (time.tdiv 1000) + 1)
  let msec ← int (sec * 1000)
  let rest ← int64 (time - msec)
  let nsec ← int64 (rest * 1000000)
  return (sec, toInt nsec)

/-- The last lines of `set`. -/
def carry (start : Timespec) : Option Timespec :=
  if start.nsec > 1000000000 then do
    let sec ← int64 (start.sec + 1)
    let nsec ← int64 (start.nsec - 1000000000)
    return ⟨sec, nsec⟩
  else some start

/-- `set(time)`, where `reset` has stored the time `now`. -/
def set (now : Timespec) (time : Int) : Option Timespec := do
  let (sec, nsec) ← split time
  let startSec ← int64 (now.sec - sec)
  let startNsec ← int64 (now.nsec - nsec)
  carry ⟨startSec, startNsec⟩

/-! ## The property and the condition -/

/-- The time in nanoseconds. -/
def Timespec.total (t : Timespec) : Int := t.sec * 10 ^ 9 + t.nsec

/-- The time is one that `clock_gettime` stores. -/
structure Timespec.Valid (t : Timespec) : Prop where
  sec : InSigned 63 t.sec
  nonneg : 0 ≤ t.nsec
  lt : t.nsec < 10 ^ 9

/-- No operation overflows, and the start is `time` milliseconds before now. -/
def SetsExactly (now : Timespec) (time : Int) : Prop :=
  ∃ start, set now time = some start ∧ start.total = now.total - time * 10 ^ 6 ∧ start.Valid

/-- `sec * 1000` is an `int`. -/
def InRange (time : Int) : Prop := -2147485000 < time ∧ time < 2147483000

/-- One carry is needed and made, or none is needed. -/
def Carries (now : Timespec) (time : Int) : Prop :=
  if 0 ≤ time then now.nsec ≠ time % 1000 * 10 ^ 6
  else 0 < now.nsec + -time % 1000 * 10 ^ 6 ∧ now.nsec + -time % 1000 * 10 ^ 6 < 10 ^ 9

/-! ## The parts of the time -/

variable {now start : Timespec} {time a b : Int}

theorem tdiv_cases (time : Int) :
    0 ≤ time ∧ time.tdiv 1000 = time / 1000 ∨ time < 0 ∧ time.tdiv 1000 = -(-time / 1000) := by
  rcases le_or_gt 0 time with h | h
  · exact Or.inl ⟨h, Int.tdiv_eq_ediv_of_nonneg h⟩
  · refine Or.inr ⟨h, ?_⟩
    have hneg : time.tdiv 1000 = -(-time).tdiv 1000 := by rw [Int.neg_tdiv, Int.neg_neg]
    rw [hneg, Int.tdiv_eq_ediv_of_nonneg (by omega)]

theorem split_eq_some : split time = some (a, b) ↔
    a = toInt (time.tdiv 1000) + 1 ∧ InSigned 31 a ∧ InSigned 31 (a * 1000) ∧
      InSigned 63 (time - a * 1000) ∧ InSigned 63 ((time - a * 1000) * 1000000) ∧
      b = toInt ((time - a * 1000) * 1000000) := by
  simp only [split, int, int64, bind, Option.bind_eq_some_iff, signed_eq_some, pure,
    Option.some_inj, Prod.mk.injEq]
  constructor
  · rintro ⟨_, ⟨h1, rfl⟩, _, ⟨h2, rfl⟩, _, ⟨h3, rfl⟩, _, ⟨h4, rfl⟩, rfl, rfl⟩
    exact ⟨rfl, h1, h2, h3, h4, rfl⟩
  · rintro ⟨rfl, h1, h2, h3, h4, rfl⟩
    exact ⟨_, ⟨h1, rfl⟩, _, ⟨h2, rfl⟩, _, ⟨h3, rfl⟩, _, ⟨h4, rfl⟩, rfl, rfl⟩

/-- In the range no part of the time is cut off. -/
theorem split_of_inRange (h : InRange time) :
    split time = some (time.tdiv 1000 + 1, (time - (time.tdiv 1000 + 1) * 1000) * 1000000) := by
  obtain ⟨h1, h2⟩ := h
  have hq := tdiv_cases time
  rw [split_eq_some, toInt_of, toInt_of]
  all_goals generalize time.tdiv 1000 = q at hq ⊢
  · unfold InSigned
    omega
  · unfold InSigned
    omega
  · unfold InSigned
    omega

/-- If the two parts make up the time, then the time is in the range: the nanoseconds are an
`int`, so the time is not far from the seconds, which are not cut off then. -/
theorem inRange_of_split (h : split time = some (a, b))
    (hexact : a * 10 ^ 9 + b = time * 10 ^ 6) : InRange time := by
  obtain ⟨ha, -, h2, -, -, hb⟩ := split_eq_some.mp h
  have hbound : InSigned 31 b := hb ▸ inSigned_toInt _
  have hq := tdiv_cases time
  unfold InSigned at h2 hbound
  have htoInt : toInt (time.tdiv 1000) = time.tdiv 1000 := by
    refine toInt_of ?_
    unfold InSigned
    omega
  rw [htoInt] at ha
  unfold InRange
  omega

/-! ## The start -/

theorem carry_eq_some : carry start = some now ↔
    if start.nsec > 1000000000 then
      InSigned 63 (start.sec + 1) ∧ InSigned 63 (start.nsec - 1000000000) ∧
        now = ⟨start.sec + 1, start.nsec - 1000000000⟩
    else now = start := by
  unfold carry
  split_ifs
  · simp only [int64, bind, Option.bind_eq_some_iff, signed_eq_some, pure, Option.some_inj]
    constructor
    · rintro ⟨_, ⟨h1, rfl⟩, _, ⟨h2, rfl⟩, rfl⟩
      exact ⟨h1, h2, rfl⟩
    · rintro ⟨h1, h2, rfl⟩
      exact ⟨_, ⟨h1, rfl⟩, _, ⟨h2, rfl⟩, rfl⟩
  · rw [Option.some_inj, eq_comm]

theorem carry_total (h : carry start = some now) : now.total = start.total := by
  rw [carry_eq_some] at h
  split_ifs at h
  · rw [h.2.2]
    simp only [Timespec.total]
    ring
  · rw [h]

theorem set_eq_some : set now time = some start ↔ ∃ a b, split time = some (a, b) ∧
    InSigned 63 (now.sec - a) ∧ InSigned 63 (now.nsec - b) ∧
      carry ⟨now.sec - a, now.nsec - b⟩ = some start := by
  simp only [set, int64, bind, Option.bind_eq_some_iff, signed_eq_some]
  constructor
  · rintro ⟨⟨a, b⟩, h, _, ⟨h1, rfl⟩, _, ⟨h2, rfl⟩, h3⟩
    exact ⟨a, b, h, h1, h2, h3⟩
  · rintro ⟨a, b, h, h1, h2, h3⟩
    exact ⟨⟨a, b⟩, h, _, ⟨h1, rfl⟩, _, ⟨h2, rfl⟩, h3⟩

/-- One carry normalises less than two seconds, unless it is exactly one. -/
theorem carry_valid_iff (start : Timespec) (hsec : InSigned 63 start.sec)
    (h0 : 0 ≤ start.nsec) (hrep : InSigned 63 (start.total / 10 ^ 9)) :
    (∃ t, carry start = some t ∧ t.Valid) ↔
      start.nsec ≠ 10 ^ 9 ∧ start.nsec < 2 * 10 ^ 9 := by
  simp only [carry_eq_some]
  constructor
  · rintro ⟨t, hc, -, ht0, ht1⟩
    split_ifs at hc with hn
    · obtain ⟨-, -, rfl⟩ := hc
      simp only at ht0 ht1
      omega
    · subst hc
      omega
  · rintro ⟨hne, hlt⟩
    unfold Timespec.total InSigned at hrep
    unfold InSigned at hsec
    split_ifs with hn
    · refine ⟨⟨start.sec + 1, start.nsec - 1000000000⟩, ⟨?_, ?_, rfl⟩, ?_, ?_, ?_⟩
      all_goals
        simp only [InSigned]
        omega
    · exact ⟨start, rfl, hsec, h0, by omega⟩

/-- The nanoseconds before the carry. -/
theorem carries_iff (hnow : now.Valid) (time : Int) :
    let nsec := now.nsec - (time - (time.tdiv 1000 + 1) * 1000) * 1000000
    0 ≤ nsec ∧ (Carries now time ↔ nsec ≠ 10 ^ 9 ∧ nsec < 2 * 10 ^ 9) := by
  intro nsec
  have hq := tdiv_cases time
  obtain ⟨-, h0, h1⟩ := hnow
  unfold Carries
  split_ifs with ht
  · omega
  · omega

/-- **When `set` is exact.** For every time of which the start can be represented, no operation
overflows and the start is exact and normalised if and only if the time is in the range in which
`sec * 1000` is an `int`, one carry normalises the nanoseconds, and the seconds before the carry can
be represented too. -/
theorem set_exact_iff (now : Timespec) (time : Int) (hnow : now.Valid)
    (hrep : InSigned 63 ((now.total - time * 10 ^ 6) / 10 ^ 9)) :
    SetsExactly now time ↔
      InRange time ∧ Carries now time ∧ -2 ^ 63 ≤ now.sec - (time.tdiv 1000 + 1) := by
  obtain ⟨h0, hcarries⟩ := carries_iff hnow time
  -- what is carried has the exact total, if no part of the time is cut off
  have htotal : ∀ q : Int, Timespec.total ⟨now.sec - (q + 1),
      now.nsec - (time - (q + 1) * 1000) * 1000000⟩ = now.total - time * 10 ^ 6 := by
    intro q
    simp only [Timespec.total]
    ring
  constructor
  · rintro ⟨start, hset, hexact, hvalid⟩
    obtain ⟨a, b, hsplit, hsec, -, hcarry⟩ := set_eq_some.mp hset
    have hrange : InRange time := by
      refine inRange_of_split hsplit ?_
      rw [carry_total hcarry] at hexact
      simp only [Timespec.total] at hexact
      omega
    rw [split_of_inRange hrange] at hsplit
    cases hsplit
    refine ⟨hrange, hcarries.mpr ?_, hsec.1⟩
    exact (carry_valid_iff ⟨_, _⟩ hsec h0 (htotal _ ▸ hrep)).mp ⟨start, hcarry, hvalid⟩
  · rintro ⟨hrange, hc, hmin⟩
    have hsec : InSigned 63 (now.sec - (time.tdiv 1000 + 1)) := by
      refine ⟨hmin, ?_⟩
      rw [← htotal (time.tdiv 1000), Timespec.total] at hrep
      have := hrep.2
      simp only at this
      omega
    have hnsec := hcarries.mp hc
    obtain ⟨start, hcarry, hvalid⟩ :=
      (carry_valid_iff ⟨_, _⟩ hsec h0 (htotal _ ▸ hrep)).mpr hnsec
    refine ⟨start, ?_, (carry_total hcarry).trans (htotal _), hvalid⟩
    refine set_eq_some.mpr ⟨_, _, split_of_inRange hrange, hsec, ⟨?_, ?_⟩, hcarry⟩
    · omega
    · omega

theorem set_exact_carried : Timespec.Valid ⟨100, 5⟩ ∧ SetsExactly ⟨100, 5⟩ 1500 := by
  have hvalid : Timespec.Valid ⟨100, 5⟩ := ⟨by decide, by decide, by decide⟩
  exact ⟨hvalid, (set_exact_iff ⟨100, 5⟩ 1500 hvalid (by decide)).mpr
    ⟨⟨by decide, by decide⟩, by simp [Carries], by decide⟩⟩

/-- Exactly one second is not carried, two seconds are carried once, and the milliseconds of 25 days
are not an `int`. -/
theorem set_inexact :
    Timespec.Valid ⟨100, 0⟩ ∧ set ⟨100, 0⟩ 0 = some ⟨99, 1000000000⟩ ∧ ¬ SetsExactly ⟨100, 0⟩ 0 ∧
      set ⟨100, 999999999⟩ (-999) = some ⟨100, 1998999999⟩ ∧ set ⟨100, 0⟩ 2160000000 = none := by
  refine ⟨⟨by decide, by decide, by decide⟩, rfl, ?_, rfl, rfl⟩
  rintro ⟨start, hset, -, hvalid⟩
  cases hset
  exact absurd hvalid.lt (by decide)

end Lunchbox.Clock
