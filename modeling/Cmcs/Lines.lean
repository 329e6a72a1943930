import Mathlib.Data.List.DropRight
import Mathlib.Data.List.Infix
import Mathlib.Tactic

/-!
# Lines of a text

`str.splitlines` with and without the line ends.  A text which has been put together
from lines with a newline after each is split into the same lines again, also after
texts have been joined.
-/

namespace Text

/-- The characters at which `splitlines` splits. -/
def isLineEnd (c : Char) : Bool :=
  c.toNat ∈ [10, 11, 12, 13, 28, 29, 30, 133, 8232, 8233]

/-- White space of `str.strip` and of `\s`. -/
def isSpace (c : Char) : Bool :=
  c.toNat ∈ [9, 10, 11, 12, 13, 28, 29, 30, 31, 32, 133, 160, 5760, 8192, 8193, 8194, 8195, 8196,
    8197, 8198, 8199, 8200, 8201, 8202, 8232, 8233, 8239, 8287, 12288]

def strip (text : List Char) : List Char := (text.dropWhile isSpace).rdropWhile isSpace

/-- The pieces of a text which end with a character for which `ends` holds, given what
follows it; `line` is the text of the current piece. -/
def splitAfter (ends : Char → List Char → Bool) (line : List Char) :
    List Char → List (List Char)
  | [] => if line = [] then [] else [line]
  | c :: cs =>
      if ends c cs = true then (line ++ [c]) :: splitAfter ends [] cs
      else splitAfter ends (line ++ [c]) cs

/-- `splitlines(keepends=True)`.  A carriage return before a newline does not end the
line. -/
def linesWithEnds (text : List Char) : List (List Char) :=
  splitAfter (fun c cs => isLineEnd c && !(c = '\r' && cs.head? = some '\n')) [] text

/-- What a file in text mode yields for its content: all line ends become newlines. -/
def universalNewlines : List Char → List Char
  | [] => []
  | c :: cs =>
      if c = '\r' then
        if cs.head? = some '\n' then universalNewlines cs else '\n' :: universalNewlines cs
      else c :: universalNewlines cs

/-- The lines over which a file in text mode iterates. -/
def fileLines (content : List Char) : List (List Char) :=
  splitAfter (fun c _ => c = '\n') [] (universalNewlines content)

/-- `splitlines()`; a kept line has line end characters nowhere but at its end. -/
def splitLines (text : List Char) : List (List Char) :=
  (linesWithEnds text).map fun line => line.rdropWhile isLineEnd

/-- A line without a line end in it. -/
def IsLine (line : List Char) : Prop := ∀ c ∈ line, isLineEnd c = false

instance (line : List Char) : Decidable (IsLine line) := List.decidableBAll _ _

def withNewline (line : List Char) : List Char := line ++ ['\n']

def unlines (lines : List (List Char)) : List Char := lines.flatMap withNewline

variable {lines : List (List Char)} {text : List Char}

@[simp] theorem unlines_nil : unlines [] = [] := rfl

@[simp] theorem unlines_cons (line : List Char) (lines : List (List Char)) :
    unlines (line :: lines) = line ++ '\n' :: unlines lines := by
  simp [unlines, withNewline]

@[simp] theorem unlines_append (lines lines' : List (List Char)) :
    unlines (lines ++ lines') = unlines lines ++ unlines lines' :=
  List.flatMap_append

theorem splitAfter_unlines {ends : Char → List Char → Bool}
    (hnewline : ∀ rest, ends '\n' rest = true)
    (hlines : ∀ line ∈ lines, ∀ c ∈ line, ∀ rest, ends c rest = false) (text : List Char) :
    splitAfter ends [] (unlines lines ++ text) =
      lines.map withNewline ++ splitAfter ends [] text := by
  have hline : ∀ line acc rest : List Char, (∀ c ∈ line, ∀ rest, ends c rest = false) →
      splitAfter ends acc (line ++ '\n' :: rest) =
        (acc ++ line ++ ['\n']) :: splitAfter ends [] rest := by
    intro line
    induction line with
    | nil => simp [splitAfter, hnewline]
    | cons c line ih =>
        intro acc rest hchars
        rw [List.forall_mem_cons] at hchars
        rw [List.cons_append, splitAfter, if_neg (by simp [hchars.1]), ih _ _ hchars.2]
        simp
  induction lines with
  | nil => simp
  | cons line lines ih =>
      rw [List.forall_mem_cons] at hlines
      rw [unlines_cons, List.append_assoc, List.cons_append, hline line [] _ hlines.1,
        ih hlines.2]
      rfl

theorem linesWithEnds_unlines_append (hlines : ∀ line ∈ lines, IsLine line)
    (text : List Char) :
    linesWithEnds (unlines lines ++ text) =
      lines.map withNewline ++ linesWithEnds text := by
  refine splitAfter_unlines (fun rest => ?_) (fun line hline c hc rest => ?_) text
  · exact (Bool.and_eq_true _ _).mpr ⟨by decide, by simp⟩
  · rw [hlines line hline c hc, Bool.false_and]

theorem universalNewlines_eq_self (htext : '\r' ∉ text) : universalNewlines text = text := by
  induction text with
  | nil => rfl
  | cons c text ih =>
      rw [List.mem_cons, not_or] at htext
      rw [universalNewlines, if_neg (fun heq => htext.1 heq.symm), ih htext.2]

theorem fileLines_unlines (hlines : ∀ line ∈ lines, IsLine line) :
    fileLines (unlines lines) = lines.map withNewline := by
  have hreturn : '\r' ∉ unlines lines := by
    intro hmem
    obtain ⟨line, hline, hc⟩ := List.mem_flatMap.mp hmem
    rw [withNewline, List.mem_append] at hc
    cases hc with
    | inl hc => exact absurd (hlines line hline _ hc) (by decide)
    | inr hc => exact absurd hc (by decide)
  rw [fileLines, universalNewlines_eq_self hreturn]
  have happend : splitAfter (fun c _ => c = '\n') [] (unlines lines ++ []) =
      lines.map withNewline ++ splitAfter (fun c _ => c = '\n') [] [] := by
    refine splitAfter_unlines (fun _ => by simp) (fun line hline c hc _ => ?_) []
    rw [decide_eq_false_iff_not]
    rintro rfl
    exact absurd (hlines line hline _ hc) (by decide)
  simpa [splitAfter] using happend

theorem linesWithEnds_unlines (hlines : ∀ line ∈ lines, IsLine line) :
    linesWithEnds (unlines lines) = lines.map withNewline := by
  have happend := linesWithEnds_unlines_append hlines []
  simpa [linesWithEnds, splitAfter] using happend

theorem rdropWhile_line {line : List Char} (hline : IsLine line) :
    (withNewline line).rdropWhile isLineEnd = line := by
  rw [withNewline, List.rdropWhile_concat_pos _ _ _ (by decide)]
  cases line using List.reverseRecOn with
  | nil => rfl
  | append_singleton line c =>
      refine List.rdropWhile_concat_neg _ _ _ ?_
      rw [hline c (by simp)]
      exact Bool.false_ne_true

theorem splitLines_unlines_append (hlines : ∀ line ∈ lines, IsLine line) (text : List Char) :
    splitLines (unlines lines ++ text) = lines ++ splitLines text := by
  rw [splitLines, linesWithEnds_unlines_append hlines, List.map_append, List.map_map]
  congr 1
  exact (List.map_congr_left fun line hline => rdropWhile_line (hlines line hline)).trans
    (List.map_id _)

theorem strip_eq_self (hspace : ∀ c ∈ text, isSpace c = false) : strip text = text := by
  have hdrop : text.dropWhile isSpace = text := by
    cases text with
    | nil => rfl
    | cons c text =>
        exact List.dropWhile_cons_of_neg (by simp [hspace c List.mem_cons_self])
  rw [strip, hdrop, List.rdropWhile_eq_self_iff]
  intro hne
  rw [hspace _ (List.getLast_mem hne)]
  exact Bool.false_ne_true

theorem infix_concat_iff_of_notMem {part : List Char} {c : Char} (hc : c ∉ part) :
    part <:+: text ++ [c] ↔ part <:+: text := by
  rw [List.infix_concat_iff, List.suffix_concat_iff]
  constructor
  · intro hinfix
    rcases hinfix with (rfl | ⟨front, rfl, -⟩) | hinfix
    · exact List.nil_infix
    · exact absurd (List.mem_append_right _ (List.mem_singleton_self c)) hc
    · exact hinfix
  · exact Or.inr

end Text
