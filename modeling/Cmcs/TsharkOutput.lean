import Cmcs.Decimal
import Cmcs.Dict
import Cmcs.Pattern
import Cmcs.RunTest
import Mathlib.Data.List.ReduceOption
import Mathlib.Tactic

/-!
# Parsing the output of tshark

The two parsers of `run_test.py` for the statistics of one filter, and the split of the
output into the blocks of the filters.  A result `none` is a `ValueError` of `float`.
`\d` is read as the ASCII digits, the only ones which tshark prints; Python's `\d` also
takes the decimal digits of other scripts.
-/

namespace Cmcs

namespace RunTest

open Text Pattern

/-- `[\d.]` -/
def isNumberChar (c : Char) : Bool := c.isDigit || c = '.'

/-- `pat`, whose groups are the two ends of the interval and the bytes. -/
def rowPattern : List Piece :=
  [.char '|', .run isSpace 0, .group isNumberChar 1, .run isSpace 0, .char '<', .char '>',
    .run isSpace 0, .group isNumberChar 1, .run isSpace 0, .char '|',
    .run isSpace 0, .run Char.isDigit 1, .run isSpace 0, .char '|',
    .run isSpace 0, .group Char.isDigit 1, .run isSpace 0, .char '|']

structure Row where
  t0 : ℚ
  t1 : ℚ
  byte : ℕ
  deriving DecidableEq

/-- The row of a line, if the line is a data line. -/
def readLine (line : List Char) : Option (Option Row) :=
  match search rowPattern line with
  | some [first, second, third] => do
      let t0 ← Decimal.float first
      let t1 ← Decimal.float second
      some (some ⟨t0, t1, toNat third⟩)
  | _ => some none

def readLines (lines : List (List Char)) : Option (List Row) :=
  (lines.mapM readLine).map List.reduceOption

/-- The rows of a block, in the order of the text. -/
def rowsOf (raw : List Char) : Option (List Row) := readLines (splitLines raw)

def Row.mbps (row : Row) : ℚ := row.byte * 8 / (row.t1 - row.t0) / 10 ^ 6

/-- `_parse_tshark_io_stat` -/
def parseTsharkIoStat (raw : List Char) (tMin tMax : ℚ) : Option (List (ℚ × ℚ)) :=
  (rowsOf raw).map fun rows => rows.filterMap fun row =>
    if row.t1 ≤ row.t0 ∨ row.t0 < tMin ∨ tMax < row.t1 then none else some (row.t0, row.mbps)

/-- `_parse_tshark_io_stat_full` -/
def parseTsharkIoStatFull (raw : List Char) : Option (List (ℚ × ℚ)) :=
  (rowsOf raw).map fun rows => rows.filterMap fun row =>
    if row.t1 ≤ row.t0 then none
    else
      let tGlobal := row.t0 - iperf3StartOffset
      if tGlobal < 0 then none else some (tGlobal, row.mbps)

/-! ## The blocks of the filters -/

/-- `'Col 1:'` -/
def headerMark : List Char := "Col 1:".toList

/-- The loop over the lines of `_parse_tshark_multi_filter`. -/
def demux (fltToVnid : List (List Char × ℕ)) :
    Option ℕ → List (ℕ × List (List Char)) → List (List Char) → List (ℕ × List (List Char))
  | _, blocks, [] => blocks
  | current, blocks, line :: lines =>
      let current :=
        if headerMark <:+: line then
          ((fltToVnid.find? fun item => item.1 <:+: line).map Prod.snd).or current
        else current
      match current with
      | some vnid =>
          demux fltToVnid (some vnid) (Dict.modify blocks vnid fun lines => lines ++ [line]) lines
      | none => demux fltToVnid none blocks lines

/-- `_parse_tshark_multi_filter` -/
def parseTsharkMultiFilter (fullRaw : List Char) (filterOrder : List (ℕ × List Char)) :
    List (ℕ × List Char) :=
  let fltToVnid := Dict.ofList (filterOrder.map fun item => (item.2, item.1))
  let blocks := Dict.ofList (filterOrder.map fun item => (item.1, []))
  (demux fltToVnid none blocks (linesWithEnds fullRaw)).map fun item => (item.1, item.2.flatten)

/-! ## Reading lines in a row -/

theorem readLines_append (lines lines' : List (List Char)) :
    readLines (lines ++ lines') = (readLines lines).bind fun rows =>
      (readLines lines').map fun rows' => rows ++ rows' := by
  unfold readLines
  rw [List.mapM_append]
  cases lines.mapM readLine with
  | none => rfl
  | some found =>
      cases lines'.mapM readLine with
      | none => rfl
      | some found' => simp [List.reduceOption_append]

theorem rowsOf_unlines {lines : List (List Char)} (hlines : ∀ line ∈ lines, IsLine line) :
    rowsOf (unlines lines) = readLines lines := by
  have happend := splitLines_unlines_append hlines []
  rw [List.append_nil] at happend
  rw [rowsOf, happend]
  simp [splitLines, linesWithEnds, splitAfter]

theorem parseTsharkIoStat_append {lines lines' : List (List Char)}
    (hlines : ∀ line ∈ lines, IsLine line) (hlines' : ∀ line ∈ lines', IsLine line)
    (tMin tMax : ℚ) :
    parseTsharkIoStat (unlines (lines ++ lines')) tMin tMax =
      (parseTsharkIoStat (unlines lines) tMin tMax).bind fun samples =>
        (parseTsharkIoStat (unlines lines') tMin tMax).map fun samples' =>
          samples ++ samples' := by
  have hboth : ∀ line ∈ lines ++ lines', IsLine line := by
    intro line hline
    cases List.mem_append.mp hline with
    | inl hfirst => exact hlines line hfirst
    | inr hlast => exact hlines' line hlast
  rw [parseTsharkIoStat, parseTsharkIoStat, parseTsharkIoStat, rowsOf_unlines hboth,
    rowsOf_unlines hlines, rowsOf_unlines hlines', readLines_append]
  cases readLines lines with
  | none => rfl
  | some rows =>
      cases readLines lines' with
      | none => rfl
      | some rows' => simp

/-! ## Data lines -/

/-- The parts of a data line; `gap` has the widths of the eight places for spaces. -/
structure RowText where
  gap : ℕ → ℕ
  first : List Char
  second : List Char
  frames : List Char
  bytes : List Char

namespace RowText

variable (text : RowText)

def spaces (i : ℕ) : List Char := List.replicate (text.gap i) ' '

/-- `|  1.000 <>  2.000  |   850  |  1258000  |` -/
def line : List Char :=
  '|' :: (text.spaces 0 ++ (text.first ++ (text.spaces 1 ++ '<' :: '>' ::
    (text.spaces 2 ++ (text.second ++ (text.spaces 3 ++ '|' ::
      (text.spaces 4 ++ (text.frames ++ (text.spaces 5 ++ '|' ::
        (text.spaces 6 ++ (text.bytes ++ (text.spaces 7 ++ ['|']))))))))))))

variable {text} {cls : Char → Bool} {i : ℕ} {rest : List Char}

theorem isSpace_of_mem_spaces {c : Char} (hc : c ∈ text.spaces i) : isSpace c = true := by
  rw [List.eq_of_mem_replicate hc]
  decide

theorem head_spaces {d : Char} (hspace : cls ' ' = false) (hd : cls d = false) :
    ∀ c ∈ (text.spaces i ++ d :: rest).head?, cls c = false := by
  intro c hc
  cases hgap : text.gap i with
  | zero =>
      obtain rfl : d = c := by simpa [spaces, hgap] using hc
      exact hd
  | succ n =>
      obtain rfl : ' ' = c := by simpa [spaces, hgap, List.replicate_succ] using hc
      exact hspace

theorem head_word {word : List Char} (hne : word ≠ []) (hword : ∀ c ∈ word, cls c = false) :
    ∀ c ∈ (word ++ rest).head?, cls c = false := by
  intro c hc
  rw [List.head?_append_of_ne_nil _ hne] at hc
  exact hword c (List.mem_of_mem_head? hc)

end RowText

/-- A data line is read as the two times and the bytes which it shows. -/
theorem readLine_line {text : RowText} {t0 t1 : ℚ}
    (hfirst : text.first ≠ [] ∧ ∀ c ∈ text.first, isNumberChar c = true)
    (hsecond : text.second ≠ [] ∧ ∀ c ∈ text.second, isNumberChar c = true)
    (hframes : text.frames ≠ [] ∧ ∀ c ∈ text.frames, c.isDigit = true)
    (hbytes : text.bytes ≠ [] ∧ ∀ c ∈ text.bytes, c.isDigit = true)
    (ht0 : Decimal.float text.first = some t0) (ht1 : Decimal.float text.second = some t1) :
    readLine text.line = some (some ⟨t0, t1, toNat text.bytes⟩) := by
  have hspaces : ∀ i, ∀ c ∈ text.spaces i, isSpace c = true := fun i c hc =>
    RowText.isSpace_of_mem_spaces hc
  have hnumber : ∀ {c : Char}, isNumberChar c = true → isSpace c = false := by
    intro c hc
    cases (Bool.or_eq_true _ _).mp hc with
    | inl hdigit => exact Decimal.not_isSpace_of_isDigit hdigit
    | inr hpoint => exact of_decide_eq_true hpoint ▸ (by decide)
  have hlength : ∀ {l : List Char}, l ≠ [] → 1 ≤ l.length := fun hne =>
    List.length_pos_of_ne_nil hne
  have hsearch : search rowPattern text.line = some [text.first, text.second, text.bytes] := by
    apply search_of_matchAt
    apply matchAt_char
    apply matchAt_run (hspaces 0) (Nat.zero_le _)
      (RowText.head_word hfirst.1 fun c hc => hnumber (hfirst.2 c hc))
    apply matchAt_group hfirst.2 (hlength hfirst.1) (RowText.head_spaces (by decide) (by decide))
    apply matchAt_run (hspaces 1) (Nat.zero_le _) (by simp [isSpace])
    apply matchAt_char
    apply matchAt_char
    apply matchAt_run (hspaces 2) (Nat.zero_le _)
      (RowText.head_word hsecond.1 fun c hc => hnumber (hsecond.2 c hc))
    apply matchAt_group hsecond.2 (hlength hsecond.1) (RowText.head_spaces (by decide) (by decide))
    apply matchAt_run (hspaces 3) (Nat.zero_le _) (by simp [isSpace])
    apply matchAt_char
    apply matchAt_run (hspaces 4) (Nat.zero_le _) (RowText.head_word hframes.1
      fun c hc => Decimal.not_isSpace_of_isDigit (hframes.2 c hc))
    apply matchAt_run hframes.2 (hlength hframes.1) (RowText.head_spaces (by decide) (by decide))
    apply matchAt_run (hspaces 5) (Nat.zero_le _) (by simp [isSpace])
    apply matchAt_char
    apply matchAt_run (hspaces 6) (Nat.zero_le _) (RowText.head_word hbytes.1
      fun c hc => Decimal.not_isSpace_of_isDigit (hbytes.2 c hc))
    apply matchAt_group hbytes.2 (hlength hbytes.1) (RowText.head_spaces (by decide) (by decide))
    apply matchAt_run (hspaces 7) (Nat.zero_le _) (by simp [isSpace])
    apply matchAt_char
    rfl
  rw [readLine, hsearch]
  simp [ht0, ht1]

end RunTest

end Cmcs
