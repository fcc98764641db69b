import Mathlib.Data.List.TakeWhile
import Mathlib.Tactic

set_option autoImplicit false

/-! # The command line of `fork`

`_buildCommandLine` (`fork.cpp`) splits a command into its arguments. Spaces separate arguments,
except between double quotes (ticks), and a backslash takes the next character as it is, also
between ticks. The characters of an argument are collected in a buffer that is used again for the
next one and that is read as a C string. A write outside of the buffer, and a C string that does not
end in it, are not defined (`none`); neither happens (`buildCommandLine_eq`).

The function gives the arguments back for every way to quote them (`tokenizer_undoes_quoting`),
unless the last argument is empty: an argument is pushed at the space behind it, but at the end of
the command only if the buffer is not empty (`empty_arguments_iff`).
-/

namespace Lunchbox.Fork

/-! ## The function -/

/-- The variables of `_buildCommandLine`. -/
structure Variables where
  commandLine : List (List Char)
  inTicks : Bool
  bufferPos : Nat
  buffer : List Char

/-- The C string that `&buffer[0]` points to. -/
def cString (buffer : List Char) : Option (List Char) :=
  if '\x00' ∈ buffer then some (buffer.takeWhile (· ≠ '\x00')) else none

namespace Variables

variable (v : Variables)

/-- `buffer[bufferPos] = c` -/
def put (c : Char) : Option Variables :=
  if v.bufferPos < v.buffer.length then some { v with buffer := v.buffer.set v.bufferPos c }
  else none

/-- `buffer[bufferPos++] = c` -/
def append (c : Char) : Option Variables :=
  (v.put c).map fun v => { v with bufferPos := v.bufferPos + 1 }

/-- `buffer[bufferPos] = '\0'; commandLine.push_back(&buffer[0])` -/
def pushBack : Option Variables :=
  (v.put '\x00').bind fun v =>
    (cString v.buffer).map fun s => { v with commandLine := v.commandLine ++ [s] }

end Variables

/-- The loop over the characters of the command. -/
def tokenize : List Char → Variables → Option Variables
  | [], v => some v
  | c :: string, v =>
      if c = ' ' then
        if v.inTicks then (v.append c).bind (tokenize string)
        else v.pushBack.bind fun v => tokenize string { v with bufferPos := 0 }
      else if c = '"' then tokenize string { v with inTicks := !v.inTicks }
      else if c = '\\' then
        match string with
        -- the character behind the last one is the end of the C string
        | [] => v.append '\x00'
        | d :: string => (v.append d).bind (tokenize string)
      else (v.append c).bind (tokenize string)

/-- `_buildCommandLine` -/
def buildCommandLine (command : List Char) : Option (List (List Char)) :=
  (tokenize command ⟨[], false, 0, List.replicate (command.length + 1) '\x00'⟩).bind fun v =>
    if v.bufferPos > 0 then v.pushBack.map Variables.commandLine else some v.commandLine

/-! ## Arguments without a buffer

The same with the characters of the current argument as a list. -/

/-- The arguments so far, and the characters of the current one. -/
structure Scan where
  arguments : List (List Char)
  inTicks : Bool
  current : List Char

/-- What a C string keeps of an argument. -/
def truncate (argument : List Char) : List Char := argument.takeWhile (· ≠ '\x00')

namespace Scan

def append (a : Scan) (c : Char) : Scan := { a with current := a.current ++ [c] }

def finish (a : Scan) : Scan :=
  { a with arguments := a.arguments ++ [truncate a.current], current := [] }

end Scan

def scan : List Char → Scan → Scan
  | [], a => a
  | c :: string, a =>
      if c = ' ' then scan string (if a.inTicks then a.append c else a.finish)
      else if c = '"' then scan string { a with inTicks := !a.inTicks }
      else if c = '\\' then
        match string with
        | [] => a.append '\x00'
        | d :: string => scan string (a.append d)
      else scan string (a.append c)

/-- The arguments of a command. -/
def arguments (command : List Char) : List (List Char) :=
  let a := scan command ⟨[], false, []⟩
  if a.current = [] then a.arguments else a.finish.arguments

/-- The buffer begins with the current argument; what is left of earlier ones has room for `n` more
characters and the end. -/
structure Holds (n : Nat) (v : Variables) (a : Scan) : Prop where
  commandLine : v.commandLine = a.arguments
  inTicks : v.inTicks = a.inTicks
  bufferPos : v.bufferPos = a.current.length
  buffer : ∃ old, v.buffer = a.current ++ old ∧ n < old.length

variable {n : Nat} {v : Variables} {a : Scan}

theorem Holds.mono (h : Holds (n + 1) v a) : Holds n v a := by
  obtain ⟨hl, ht, hp, old, hb, hn⟩ := h
  exact ⟨hl, ht, hp, old, hb, Nat.lt_of_succ_lt hn⟩

theorem Holds.put (h : Holds n v a) (c : Char) :
    ∃ old, v.put c = some { v with buffer := a.current ++ c :: old } ∧ n ≤ old.length := by
  obtain ⟨-, -, hp, old, hb, hn⟩ := h
  cases old with
  | nil => exact absurd hn (Nat.not_lt_zero n)
  | cons x old =>
      refine ⟨old, ?_, Nat.le_of_lt_succ hn⟩
      have hlt : v.bufferPos < v.buffer.length := by
        rw [hp, hb, List.length_append, List.length_cons]
        omega
      rw [Variables.put, if_pos hlt, hb, hp, List.set_append_right _ _ (Nat.le_refl _),
        Nat.sub_self, List.set_cons_zero]

theorem Holds.append (h : Holds (n + 1) v a) (c : Char) :
    ∃ v', v.append c = some v' ∧ Holds n v' (a.append c) := by
  obtain ⟨old, hput, hn⟩ := h.put c
  have happend : v.append c = some { v with
      bufferPos := v.bufferPos + 1
      buffer := a.current ++ c :: old } := by
    rw [Variables.append, hput, Option.map_some]
  refine ⟨_, happend, h.commandLine, h.inTicks, ?_, old, ?_, hn⟩
  · rw [Scan.append, List.length_append, ← h.bufferPos, List.length_singleton]
  · rw [Scan.append, List.append_assoc, List.singleton_append]

/-- A C string ends at the first end that it has. -/
theorem takeWhile_end (argument old : List Char) :
    (argument ++ '\x00' :: old).takeWhile (· ≠ '\x00') = truncate argument := by
  induction argument with
  | nil => rfl
  | cons c argument ih =>
      rw [truncate] at ih ⊢
      rw [List.cons_append, List.takeWhile_cons, List.takeWhile_cons, ih]

theorem Holds.pushBack (h : Holds n v a) :
    ∃ v', v.pushBack = some v' ∧ v'.commandLine = a.finish.arguments ∧
      Holds n { v' with bufferPos := 0 } a.finish := by
  obtain ⟨old, hput, hn⟩ := h.put '\x00'
  have hmem : '\x00' ∈ a.current ++ '\x00' :: old := by simp
  have hpush : v.pushBack = some { v with
      commandLine := a.finish.arguments
      buffer := a.current ++ '\x00' :: old } := by
    rw [Variables.pushBack, hput, Option.bind_some, cString, if_pos hmem, Option.map_some,
      takeWhile_end, h.commandLine]
    rfl
  refine ⟨_, hpush, rfl, rfl, h.inTicks, rfl, a.current ++ '\x00' :: old, rfl, ?_⟩
  rw [List.length_append, List.length_cons]
  omega

/-- The loop body. -/
theorem tokenize_cons (c : Char) (string : List Char) (v : Variables) :
    tokenize (c :: string) v =
      if c = ' ' then
        if v.inTicks then (v.append c).bind (tokenize string)
        else v.pushBack.bind fun v => tokenize string { v with bufferPos := 0 }
      else if c = '"' then tokenize string { v with inTicks := !v.inTicks }
      else if c = '\\' then
        match string with
        | [] => v.append '\x00'
        | d :: string => (v.append d).bind (tokenize string)
      else (v.append c).bind (tokenize string) := by
  rw [tokenize.eq_def]

/-- **The loop keeps the current argument in the buffer**, which has room for all of the command. -/
theorem tokenize_eq (string : List Char) {v : Variables} {a : Scan}
    (h : Holds string.length v a) :
    ∃ v', tokenize string v = some v' ∧ Holds 0 v' (scan string a) := by
  fun_induction scan string a generalizing v with
  | case1 a => exact ⟨v, by rw [tokenize], h⟩
  | case2 string a ih =>
      rw [tokenize_cons, if_pos rfl, h.inTicks]
      split_ifs at ih ⊢ with hticks
      · obtain ⟨v', hv, hv'⟩ := h.append ' '
        rw [hv]
        exact ih hv'
      · obtain ⟨v', hv, -, hv'⟩ := h.pushBack
        rw [hv]
        exact ih hv'.mono
  | case3 string a hspace ih =>
      rw [tokenize_cons, if_neg hspace, if_pos rfl]
      exact ih ⟨h.commandLine, by rw [h.inTicks], h.bufferPos, h.mono.buffer⟩
  | case4 a hspace htick =>
      rw [tokenize_cons, if_neg hspace, if_neg htick, if_pos rfl]
      exact h.append '\x00'
  | case5 a d string hspace htick ih =>
      rw [tokenize_cons, if_neg hspace, if_neg htick, if_pos rfl]
      obtain ⟨v', hv, hv'⟩ := h.append d
      simp only [hv, Option.bind_some]
      exact ih hv'.mono
  | case6 c string a hspace htick hescape ih =>
      rw [tokenize_cons, if_neg hspace, if_neg htick, if_neg hescape]
      obtain ⟨v', hv, hv'⟩ := h.append c
      rw [hv]
      exact ih hv'

/-- **No access outside of the buffer**, for every command. -/
theorem buildCommandLine_eq (command : List Char) :
    buildCommandLine command = some (arguments command) := by
  have hinit : Holds command.length ⟨[], false, 0, List.replicate (command.length + 1) '\x00'⟩
      ⟨[], false, []⟩ :=
    ⟨rfl, rfl, rfl, List.replicate (command.length + 1) '\x00', rfl, by simp⟩
  obtain ⟨v, hv, h⟩ := tokenize_eq command hinit
  rw [buildCommandLine, hv, Option.bind_some, arguments, h.bufferPos]
  generalize scan command ⟨[], false, []⟩ = a at h
  by_cases hc : a.current = []
  · rw [if_pos hc, if_neg (by simp [hc]), h.commandLine]
  · obtain ⟨v', hv', hl, -⟩ := h.pushBack
    rw [if_neg hc, if_pos (List.length_pos_of_ne_nil hc), hv', Option.map_some, hl]

/-! ## Quoting -/

/-- `Encodes ticks argument string`: from a place between ticks or not, the string writes the
argument and ends outside of ticks. A character is written as itself, where it has no meaning of its
own, or behind a backslash, and ticks may stand anywhere. -/
inductive Encodes : Bool → List Char → List Char → Prop
  | done : Encodes false [] []
  | plain {ticks : Bool} {c : Char} {argument string : List Char} :
      c ≠ '"' → c ≠ '\\' → (ticks = false → c ≠ ' ') → Encodes ticks argument string →
      Encodes ticks (c :: argument) (c :: string)
  | escaped {ticks : Bool} {argument string : List Char} (c : Char) :
      Encodes ticks argument string → Encodes ticks (c :: argument) ('\\' :: c :: string)
  | tick {ticks : Bool} {argument string : List Char} :
      Encodes (!ticks) argument string → Encodes ticks argument ('"' :: string)

/-- The encodings of a command, with a space between any two. -/
def join (strings : List (List Char)) : List Char := [' '].intercalate strings

theorem scan_cons (c : Char) (string : List Char) (a : Scan) :
    scan (c :: string) a =
      if c = ' ' then scan string (if a.inTicks then a.append c else a.finish)
      else if c = '"' then scan string { a with inTicks := !a.inTicks }
      else if c = '\\' then
        match string with
        | [] => a.append '\x00'
        | d :: string => scan string (a.append d)
      else scan string (a.append c) := by
  rw [scan.eq_def]

theorem scan_space (string : List Char) (words : List (List Char)) (current : List Char) :
    scan (' ' :: string) ⟨words, false, current⟩
      = scan string ⟨words ++ [truncate current], false, []⟩ := by
  rw [scan_cons, if_pos rfl]
  rfl

/-- **An encoding adds its argument to the current one.** -/
theorem scan_encoding {ticks : Bool} {argument string : List Char}
    (h : Encodes ticks argument string) (rest : List Char) (words : List (List Char))
    (current : List Char) :
    scan (string ++ rest) ⟨words, ticks, current⟩
      = scan rest ⟨words, false, current ++ argument⟩ := by
  induction h generalizing current with
  | done => rw [List.nil_append, List.append_nil]
  | @plain ticks c argument string hq hb hs _ ih =>
      have happend : current ++ c :: argument = current ++ [c] ++ argument := by simp
      rw [List.cons_append, scan_cons, happend, ← ih]
      by_cases hc : c = ' '
      · subst hc
        cases ticks with
        | false => exact absurd rfl (hs rfl)
        | true => rw [if_pos rfl, if_pos rfl, Scan.append]
      · rw [if_neg hc, if_neg hq, if_neg hb, Scan.append]
  | @escaped ticks argument string c _ ih =>
      have happend : current ++ c :: argument = current ++ [c] ++ argument := by simp
      rw [List.cons_append, scan_cons, happend, ← ih]
      rfl
  | tick _ ih =>
      rw [List.cons_append, scan_cons, if_neg (by decide), if_pos rfl, ih]

theorem join_cons (string : List Char) {strings : List (List Char)} (h : strings ≠ []) :
    join (string :: strings) = string ++ ' ' :: join strings := by
  rw [join, join, List.intercalate_cons_of_ne_nil h, List.append_assoc, List.singleton_append]

/-- **All arguments but the last one are pushed**, and the last one is the current one. -/
theorem scan_join {args strings : List (List Char)} (h : List.Forall₂ (Encodes false) args strings)
    (hne : args ≠ []) (words : List (List Char)) :
    scan (join strings) ⟨words, false, []⟩
      = ⟨words ++ args.dropLast.map truncate, false, args.getLast hne⟩ := by
  induction h generalizing words with
  | nil => exact absurd rfl hne
  | @cons argument string args strings ha hrest ih =>
      cases hrest with
      | nil =>
          rw [join, List.intercalate_singleton, ← List.append_nil string, scan_encoding ha, scan]
          simp
      | @cons argument' string' args strings ha' hrest =>
          rw [join_cons string (List.cons_ne_nil _ _), scan_encoding ha, scan_space,
            ih (List.cons_ne_nil _ _), List.nil_append, List.dropLast_cons_cons, List.map_cons,
            List.getLast_cons (List.cons_ne_nil _ _), List.append_assoc, List.singleton_append]

theorem truncate_of_not_mem {argument : List Char} (h : '\x00' ∉ argument) :
    truncate argument = argument := by
  refine List.takeWhile_eq_self_iff.mpr fun c hc => ?_
  exact decide_eq_true fun he => h (he ▸ hc)

theorem map_truncate {args : List (List Char)} (h : ∀ a ∈ args, '\x00' ∉ a) :
    args.map truncate = args :=
  calc args.map truncate
      = args.map id := List.map_congr_left fun a ha => truncate_of_not_mem (h a ha)
    _ = args := List.map_id args

/-- The arguments of a joined command: an empty last one is missing. -/
theorem arguments_join {args strings : List (List Char)}
    (h : List.Forall₂ (Encodes false) args strings) (hne : args ≠ [])
    (hnul : ∀ a ∈ args, '\x00' ∉ a) :
    arguments (join strings) = if args.getLast hne = [] then args.dropLast else args := by
  have hlast := truncate_of_not_mem (hnul _ (List.getLast_mem hne))
  have hrest := map_truncate fun a ha => hnul a (List.mem_of_mem_dropLast ha)
  simp only [arguments, scan_join h hne, Scan.finish, hrest, hlast, List.nil_append,
    List.dropLast_append_getLast hne]

/-- **The tokenizer undoes quoting.** -/
theorem tokenizer_undoes_quoting (args strings : List (List Char)) (hne : args ≠ [])
    (hargs : ∀ a ∈ args, a ≠ [] ∧ '\x00' ∉ a)
    (h : List.Forall₂ (Encodes false) args strings) :
    buildCommandLine (join strings) = some args := by
  have hlast := (hargs _ (List.getLast_mem hne)).1
  rw [buildCommandLine_eq, arguments_join h hne fun a ha => (hargs a ha).2, if_neg hlast]

theorem tokenizer_undoes_quoting_mixed :
    buildCommandLine (join [['"', 'a', ' ', '"', '\\', '"'], ['b']])
      = some [['a', ' ', '"'], ['b']] :=
  tokenizer_undoes_quoting _ _ (by decide) (by decide)
    (.cons (.tick (.plain (by decide) (by decide) (by decide)
      (.plain (by decide) (by decide) (by decide) (.tick (.escaped '"' .done)))))
    (.cons (.plain (by decide) (by decide) (by decide) .done) .nil))

/-! ## Empty arguments -/

/-- A character with a backslash in front of it, if it has a meaning of its own. -/
def escape (c : Char) : List Char := if c ∈ [' ', '"', '\\'] then ['\\', c] else [c]

/-- An empty argument is written as two ticks. -/
def quote (argument : List Char) : List Char :=
  if argument = [] then ['"', '"'] else argument.flatMap escape

theorem encodes_escape (argument : List Char) :
    Encodes false argument (argument.flatMap escape) := by
  induction argument with
  | nil => exact .done
  | cons c argument ih =>
      rw [List.flatMap_cons, escape]
      split_ifs with hc
      · exact .escaped c ih
      · simp only [List.mem_cons, List.not_mem_nil, or_false, not_or] at hc
        exact .plain hc.2.1 hc.2.2 (fun _ => hc.1) ih

theorem encodes_quote (argument : List Char) : Encodes false argument (quote argument) := by
  rw [quote]
  split_ifs with h
  · subst h
    exact .tick (.tick .done)
  · exact encodes_escape argument

/-- **When empty arguments are preserved**: all of them are if and only if the last argument is not
one of them. -/
theorem empty_arguments_iff (args : List (List Char)) (hne : args ≠ [])
    (hnul : ∀ a ∈ args, '\x00' ∉ a) :
    buildCommandLine (join (args.map quote)) = some args ↔ args.getLast hne ≠ [] := by
  have hquote : List.Forall₂ (Encodes false) args (args.map quote) :=
    List.forall₂_map_right_iff.mpr (List.forall₂_same.mpr fun a _ => encodes_quote a)
  rw [buildCommandLine_eq, arguments_join hquote hne hnul, Option.some_inj]
  split_ifs with hlast
  · refine iff_of_false ?_ (not_not_intro hlast)
    intro he
    have hlen := congrArg List.length he
    have hpos := List.length_pos_of_ne_nil hne
    rw [List.length_dropLast] at hlen
    omega
  · exact iff_of_true rfl hlast

theorem empty_arguments_inside :
    buildCommandLine (join ([[], ['a'], [], ['b', ' ']].map quote))
      = some [[], ['a'], [], ['b', ' ']] :=
  (empty_arguments_iff [[], ['a'], [], ['b', ' ']] (by decide) (by decide)).mpr (by decide)

theorem empty_argument_dropped :
    buildCommandLine (join ([['a'], []].map quote)) = some [['a']] ∧
      buildCommandLine (join ([['a'], []].map quote)) ≠ some [['a'], []] := by
  rw [buildCommandLine_eq]
  exact ⟨by decide, by decide⟩

end Lunchbox.Fork
