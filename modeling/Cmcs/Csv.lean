import Cmcs.Dict
import Mathlib.Tactic

/-!
# Comma-separated values

The reader of the `csv` module in its default dialect, one character at a time, and
`DictReader`, for which the first record names the fields.  Fields without separators,
quotes and line ends are read back as they were written.
-/

namespace Csv

inductive State
  | startRecord
  | startField
  | inField
  | inQuotedField
  | quoteInQuotedField
  | eatNewline
  deriving DecidableEq

structure Reader where
  state : State := .startRecord
  field : List Char := []
  fields : List (List Char) := []
  deriving DecidableEq

def isNewline (c : Char) : Bool := c = '\n' || c = '\r'

namespace Reader

variable (r : Reader) (c : Char)

def save (state : State) : Reader := ⟨state, [], r.fields ++ [r.field]⟩

def add (state : State) : Reader := ⟨state, r.field ++ [c], r.fields⟩

def beginField : Reader :=
  if isNewline c = true then r.save .eatNewline
  else if c = '"' then { r with state := .inQuotedField }
  else if c = ',' then r.save .startField
  else r.add c .inField

/-- One character; `none` is the error for a lone line end within a line. -/
def feed : Option Reader :=
  match r.state with
  | .startRecord =>
      some (if isNewline c = true then { r with state := .eatNewline } else r.beginField c)
  | .startField => some (r.beginField c)
  | .inField =>
      some (if isNewline c = true then r.save .eatNewline
        else if c = ',' then r.save .startField
        else r.add c .inField)
  | .inQuotedField =>
      some (if c = '"' then { r with state := .quoteInQuotedField }
        else r.add c .inQuotedField)
  | .quoteInQuotedField =>
      some (if c = '"' then r.add c .inQuotedField
        else if c = ',' then r.save .startField
        else if isNewline c = true then r.save .eatNewline
        else r.add c .inField)
  | .eatNewline => if isNewline c = true then some r else none

/-- The end of a line; a quoted field goes on in the next one. -/
def endLine : Reader :=
  match r.state with
  | .startRecord => r
  | .startField => r.save .startRecord
  | .inField => r.save .startRecord
  | .inQuotedField => r
  | .quoteInQuotedField => r.save .startRecord
  | .eatNewline => { r with state := .startRecord }

def readLine (line : List Char) : Option Reader := (line.foldlM feed r).map endLine

end Reader

/-- The records of the lines of a file, from a reader which may be within a record. -/
def records (r : Reader) : List (List Char) → Option (List (List (List Char)))
  | [] =>
      if r.field ≠ [] ∨ r.state = .inQuotedField then some [(r.save .startRecord).fields]
      else some []
  | line :: lines => do
      let r ← r.readLine line
      if r.state = .startRecord then
        let later ← records {} lines
        some (r.fields :: later)
      else records r lines

/-- The rows of a `DictReader`: a short record has no value for the fields it lacks. -/
def dictRows : List (List (List Char)) → List (List (List Char × Option (List Char)))
  | [] => []
  | names :: rows =>
      (rows.filter fun row => row ≠ []).map fun row =>
        Dict.ofList (names.zip (row.map some ++ List.replicate (names.length - row.length) none))

theorem dictRows_of_length {names : List (List Char)} {rows : List (List (List Char))}
    (hnodup : names.Nodup) (hne : names ≠ []) (hrows : ∀ row ∈ rows, row.length = names.length) :
    dictRows (names :: rows) = rows.map fun row => names.zip (row.map some) := by
  have hfilter : (rows.filter fun row => row ≠ []) = rows := by
    refine List.filter_eq_self.mpr fun row hrow => decide_eq_true fun hempty => hne ?_
    rw [← List.length_eq_zero_iff, ← hrows row hrow, hempty, List.length_nil]
  rw [dictRows, hfilter]
  refine List.map_congr_left fun row hrow => ?_
  have hlength := hrows row hrow
  rw [hlength, Nat.sub_self, List.replicate_zero, List.append_nil]
  refine Dict.ofList_eq_self ?_
  rwa [List.map_fst_zip (by rw [List.length_map, hlength])]

/-- One line of a file, without its end. -/
def line (fields : List (List Char)) : List Char := [','].intercalate fields

theorem mem_line {fields : List (List Char)} {c : Char} (hc : c ∈ line fields) :
    c = ',' ∨ ∃ field ∈ fields, c ∈ field := by
  induction fields with
  | nil => exact absurd hc List.not_mem_nil
  | cons field fields ih =>
      cases fields with
      | nil =>
          rw [line, List.intercalate_singleton] at hc
          exact Or.inr ⟨field, List.mem_singleton_self field, hc⟩
      | cons next fields =>
          rw [line, List.intercalate_cons_cons, List.mem_append, List.mem_append,
            List.mem_singleton] at hc
          rcases hc with (hfield | hcomma) | hlater
          · exact Or.inr ⟨field, List.mem_cons_self, hfield⟩
          · exact Or.inl hcomma
          · exact (ih hlater).imp_right fun hexists =>
              hexists.imp fun _ hmem => ⟨List.mem_cons_of_mem _ hmem.1, hmem.2⟩

/-! ## Plain fields -/

/-- A field which needs no quotes. -/
def Plain (field : List Char) : Prop :=
  field ≠ [] ∧ ∀ c ∈ field, c ≠ ',' ∧ c ≠ '"' ∧ isNewline c = false

section Plain

variable {field : List Char} {fields : List (List Char)} {rest : List Char}
variable {rows : List (List (List Char))}

theorem feed_inField (hfield : ∀ c ∈ field, c ≠ ',' ∧ c ≠ '"' ∧ isNewline c = false)
    (before : List Char) (saved : List (List Char)) :
    (field ++ rest).foldlM Reader.feed ⟨.inField, before, saved⟩ =
      rest.foldlM Reader.feed ⟨.inField, before ++ field, saved⟩ := by
  induction field generalizing before with
  | nil => simp
  | cons c field ih =>
      rw [List.forall_mem_cons] at hfield
      obtain ⟨⟨hcomma, -, hnewline⟩, hlater⟩ := hfield
      have hfeed : Reader.feed ⟨.inField, before, saved⟩ c =
          some ⟨.inField, before ++ [c], saved⟩ := by
        simp [Reader.feed, hcomma, hnewline, Reader.add]
      rw [List.cons_append, List.foldlM_cons, hfeed, Option.bind_eq_bind, Option.bind_some,
        ih hlater, List.append_assoc, List.singleton_append]

theorem feed_field (hfield : Plain field) {state : State}
    (hstate : state = .startRecord ∨ state = .startField) (saved : List (List Char)) :
    (field ++ rest).foldlM Reader.feed ⟨state, [], saved⟩ =
      rest.foldlM Reader.feed ⟨.inField, field, saved⟩ := by
  obtain ⟨hne, hchars⟩ := hfield
  cases field with
  | nil => exact absurd rfl hne
  | cons c field =>
      rw [List.forall_mem_cons] at hchars
      obtain ⟨⟨hcomma, hquote, hnewline⟩, hlater⟩ := hchars
      have hfeed : Reader.feed ⟨state, [], saved⟩ c = some ⟨.inField, [c], saved⟩ := by
        cases hstate with
        | inl hrecord =>
            subst state
            simp [Reader.feed, Reader.beginField, hcomma, hquote, hnewline, Reader.add]
        | inr hstart =>
            subst state
            simp [Reader.feed, Reader.beginField, hcomma, hquote, hnewline, Reader.add]
      rw [List.cons_append, List.foldlM_cons, hfeed, Option.bind_eq_bind, Option.bind_some,
        feed_inField hlater, List.singleton_append]

theorem feed_fields (hfields : ∀ field ∈ fields, Plain field) (hne : fields ≠ []) {state : State}
    (hstate : state = .startRecord ∨ state = .startField) (saved : List (List Char)) :
    (line fields ++ ['\n']).foldlM Reader.feed ⟨state, [], saved⟩ =
      some ⟨.eatNewline, [], saved ++ fields⟩ := by
  induction fields generalizing state saved with
  | nil => exact absurd rfl hne
  | cons field fields ih =>
      rw [List.forall_mem_cons] at hfields
      cases fields with
      | nil =>
          rw [line, List.intercalate_singleton, feed_field hfields.1 hstate]
          simp [Reader.feed, isNewline, Reader.save]
      | cons next fields =>
          have hcomma : Reader.feed ⟨.inField, field, saved⟩ ',' =
              some ⟨.startField, [], saved ++ [field]⟩ := by
            simp [Reader.feed, isNewline, Reader.save]
          have hlater := ih hfields.2 (List.cons_ne_nil _ _) (Or.inr rfl) (saved ++ [field])
          rw [line, List.intercalate_cons_cons, List.append_assoc, List.append_assoc,
            feed_field hfields.1 hstate, List.singleton_append, List.foldlM_cons, hcomma,
            Option.bind_eq_bind, Option.bind_some, ← line, hlater]
          simp

/-- Lines of plain fields are read as these fields. -/
theorem records_lines (hrows : ∀ row ∈ rows, row ≠ [] ∧ ∀ field ∈ row, Plain field) :
    records {} (rows.map fun row => line row ++ ['\n']) = some rows := by
  induction rows with
  | nil => rfl
  | cons row rows ih =>
      rw [List.forall_mem_cons] at hrows
      have hread : Reader.readLine {} (line row ++ ['\n']) = some ⟨.startRecord, [], row⟩ := by
        rw [Reader.readLine, feed_fields hrows.1.2 hrows.1.1 (Or.inl rfl)]
        rfl
      rw [List.map_cons, records, hread, Option.bind_eq_bind, Option.bind_some, if_pos rfl,
        ih hrows.2]
      rfl

end Plain

end Csv
