import Mathlib.Tactic

set_option autoImplicit false

/-! # `string::prepend`

The function that puts a text in front of every line of a string (`string.h`). It goes through the
input with `find` and `substr`, from one newline to the next. The lines of a string are what
`List.splitOn` gives, so that a newline at the end is followed by an empty line, and the function
is described by them (`prepend_lines`).
-/

namespace Lunchbox.Strings

/-! ## The function -/

/-- `s.find(c, pos)`; `none` is `npos`. -/
def find (s : List Char) (c : Char) (pos : Nat) : Option Nat :=
  ((s.drop pos).findIdx? (· == c)).map (pos + ·)

/-- `s.substr(pos, count)`, where a `count` of `none` is `npos`; throws if `pos` is behind the
end. -/
def substr (s : List Char) (pos : Nat) (count : Option Nat) : Option (List Char) :=
  if s.length < pos then none
  else some (match count with
    | some n => (s.drop pos).take n
    | none => s.drop pos)

theorem find_bounds {s : List Char} {c : Char} {pos k : Nat} (h : find s c pos = some k) :
    pos ≤ k ∧ k < s.length := by
  obtain ⟨j, hj, rfl⟩ := Option.map_eq_some_iff.mp h
  obtain ⟨hlt, -⟩ := List.findIdx?_eq_some_iff_getElem.mp hj
  rw [List.length_drop] at hlt
  omega

/-- The loop of `prepend` and the line after the last newline. -/
def prependFrom (input text output : List Char) (pos : Nat) : Option (List Char) :=
  match _h : find input '\n' pos with
  | some nextPos =>
      (substr input pos (some (nextPos - pos + 1))).bind fun line =>
        prependFrom input text (output ++ (text ++ line)) (nextPos + 1)
  | none => (substr input pos none).map fun line => output ++ (text ++ line)
termination_by input.length - pos
decreasing_by
  have := find_bounds _h
  omega

/-- `prepend(input, text)`; `none` if `substr` throws. -/
def prepend (input text : List Char) : Option (List Char) := prependFrom input text [] 0

/-! ## Lines -/

def lines (s : List Char) : List (List Char) := s.splitOn '\n'

def unlines (ls : List (List Char)) : List Char := ['\n'].intercalate ls

theorem lines_newline {l : List Char} (h : '\n' ∉ l) (rest : List Char) :
    lines (l ++ '\n' :: rest) = l :: lines rest :=
  List.splitOn_append_cons_self_of_not_mem h rest

theorem lines_last {l : List Char} (h : '\n' ∉ l) : lines l = [l] := List.splitOn_eq_singleton h

/-- A string is its last line, or a line, a newline and other lines. -/
theorem lines_induction {motive : List Char → Prop} (last : ∀ l, '\n' ∉ l → motive l)
    (newline : ∀ l rest, '\n' ∉ l → motive rest → motive (l ++ '\n' :: rest)) (s : List Char) :
    motive s := by
  induction hn : s.length using Nat.strong_induction_on generalizing s with
  | _ n ih =>
      by_cases hs : '\n' ∈ s
      · obtain ⟨l, rest, rfl, hl⟩ := List.eq_append_cons_of_mem hs
        refine newline l rest hl (ih rest.length ?_ rest rfl)
        rw [← hn, List.length_append, List.length_cons]
        omega
      · exact last s hs

theorem length_lines (s : List Char) : (lines s).length = s.count '\n' + 1 := by
  induction s using lines_induction with
  | last l hl => rw [lines_last hl, List.count_eq_zero_of_not_mem hl, List.length_singleton]
  | newline l rest hl ih =>
      rw [lines_newline hl, List.length_cons, ih, List.count_append, List.count_cons_self,
        List.count_eq_zero_of_not_mem hl, Nat.zero_add]

theorem not_mem_of_mem_lines {s l : List Char} (h : l ∈ lines s) : '\n' ∉ l := by
  induction s using lines_induction with
  | last l' hl =>
      rw [lines_last hl, List.mem_singleton] at h
      rwa [h]
  | newline l' rest hl ih =>
      rw [lines_newline hl, List.mem_cons] at h
      rcases h with rfl | h
      · exact hl
      · exact ih h

theorem unlines_lines (s : List Char) : unlines (lines s) = s := List.intercalate_splitOn '\n'

/-! ## The loop -/

theorem find_newline {s l rest : List Char} {pos : Nat} (h : s.drop pos = l ++ '\n' :: rest)
    (hl : '\n' ∉ l) : find s '\n' pos = some (pos + l.length) := by
  have hidx : (l ++ '\n' :: rest).findIdx? (· == '\n') = some l.length := by
    rw [List.findIdx?_append, List.findIdx?_eq_none_iff.mpr, Option.none_or, List.findIdx?_cons]
    · simp
    · intro c hc
      exact beq_false_of_ne fun he => hl (he ▸ hc)
  rw [find, h, hidx, Option.map_some]

theorem find_none {s : List Char} {pos : Nat} (h : '\n' ∉ s.drop pos) :
    find s '\n' pos = none := by
  rw [find, List.findIdx?_eq_none_iff.mpr, Option.map_none]
  intro c hc
  exact beq_false_of_ne fun he => h (he ▸ hc)

/-- What the loop adds to the output is the rest of the input, line by line. -/
theorem prependFrom_eq (input text rest : List Char) :
    ∀ pos output, pos ≤ input.length → input.drop pos = rest →
      prependFrom input text output pos
        = some (output ++ unlines ((lines rest).map (text ++ ·))) := by
  induction rest using lines_induction with
  | last l hl =>
      intro pos output hpos hdrop
      have hfind : find input '\n' pos = none := find_none (hdrop ▸ hl)
      rw [prependFrom, lines_last hl]
      split
      · next he => rw [hfind] at he; cases he
      · rw [substr, if_neg (Nat.not_lt.mpr hpos), hdrop]
        simp [unlines]
  | newline l rest hl ih =>
      intro pos output hpos hdrop
      have hfind := find_newline hdrop hl
      obtain ⟨-, hlt⟩ := find_bounds hfind
      -- the line with its newline, and the position behind it
      have hassoc : input.drop pos = (l ++ ['\n']) ++ rest := by
        rw [hdrop, List.append_assoc, List.singleton_append]
      have hlen : (l ++ ['\n']).length = l.length + 1 := List.length_append
      have hline : substr input pos (some (pos + l.length - pos + 1)) = some (l ++ ['\n']) := by
        rw [substr, if_neg (Nat.not_lt.mpr hpos), hassoc, Nat.add_sub_cancel_left]
        exact congrArg some (List.take_left' hlen)
      have hnext : input.drop (pos + l.length + 1) = rest := by
        rw [Nat.add_assoc, ← List.drop_drop, hassoc]
        exact List.drop_left' hlen
      rw [prependFrom, lines_newline hl]
      split
      · next he =>
          rw [hfind] at he
          cases he
          rw [hline, Option.bind_some, ih _ _ hlt hnext, List.map_cons, unlines, unlines,
            List.intercalate_cons_of_ne_nil]
          · simp
          · simp [lines, List.splitOn_ne_nil]
      · next he => rw [hfind] at he; cases he

theorem prepend_eq (input text : List Char) :
    prepend input text = some (unlines ((lines input).map (text ++ ·))) := by
  rw [prepend, prependFrom_eq input text input 0 [] (Nat.zero_le _) List.drop_zero,
    List.nil_append]

/-- Prepending a text without a newline does not make new lines. -/
theorem lines_unlines {input a : List Char} (h : '\n' ∉ a) :
    lines (unlines ((lines input).map (a ++ ·))) = (lines input).map (a ++ ·) := by
  refine List.splitOn_intercalate '\n' ?_ ?_
  · intro l hl
    obtain ⟨l', hl', rfl⟩ := List.mem_map.mp hl
    rw [List.mem_append]
    rintro (ha | hm)
    · exact h ha
    · exact not_mem_of_mem_lines hl' hm
  · rw [Ne, List.map_eq_nil_iff]
    exact List.splitOn_ne_nil '\n' input

/-- **`prepend` puts the text in front of every line.** It returns, with the lines of the input, of
which there is one more than newlines, each behind the text; an empty text changes nothing, and two
texts are prepended one after the other or at once. -/
theorem prepend_lines (input text : List Char) :
    prepend input text = some (unlines ((lines input).map (text ++ ·))) ∧
    (lines input).length = input.count '\n' + 1 ∧
    prepend input [] = some input ∧
    ∀ a b, '\n' ∉ a →
      (prepend input a).bind (fun s => prepend s b) = prepend input (b ++ a) := by
  refine ⟨prepend_eq input text, length_lines input, ?_, ?_⟩
  · rw [prepend_eq]
    simp only [List.nil_append, List.map_id', unlines_lines]
  · intro a b ha
    simp only [prepend_eq, Option.bind_some, lines_unlines ha, List.map_map, Function.comp_def,
      List.append_assoc]

theorem prepend_lines_twice :
    (prepend ['\n', 'x'] [' ']).bind (fun s => prepend s ['>'])
        = prepend ['\n', 'x'] ['>', ' '] ∧
      prepend ['\n', 'x'] ['>', ' '] = some ['>', ' ', '\n', '>', ' ', 'x'] :=
  ⟨(prepend_lines ['\n', 'x'] []).2.2.2 [' '] ['>'] (by decide), by
    rw [prepend_eq]
    rfl⟩

end Lunchbox.Strings
