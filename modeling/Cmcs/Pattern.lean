import Mathlib.Data.List.Basic
import Mathlib.Tactic

/-!
# Search patterns

Regular expressions which are a sequence of literal characters and greedy runs of a
class of characters, some of them captured.  The matcher takes the longest run first
and goes back to shorter ones if the rest of the pattern fails.
-/

namespace Pattern

inductive Piece
  | char (c : Char)
  | run (cls : Char → Bool) (atLeast : ℕ)
  | group (cls : Char → Bool) (atLeast : ℕ)

/-- The ways to take `atLeast` or more characters of a class, the longest one first. -/
def splits (cls : Char → Bool) (atLeast : ℕ) (text : List Char) :
    List (List Char × List Char) :=
  (((List.range ((text.takeWhile cls).length + 1)).filter fun n => atLeast ≤ n).reverse).map
    text.splitAt

/-- The captures of a match at the beginning of a text. -/
def matchAt : List Piece → List Char → Option (List (List Char))
  | [], _ => some []
  | .char _ :: _, [] => none
  | .char c :: pieces, d :: text => if d = c then matchAt pieces text else none
  | .run cls atLeast :: pieces, text =>
      (splits cls atLeast text).findSome? fun split => matchAt pieces split.2
  | .group cls atLeast :: pieces, text =>
      (splits cls atLeast text).findSome? fun split =>
        (matchAt pieces split.2).map fun groups => split.1 :: groups

/-- `search`: the captures of the leftmost match. -/
def search (pieces : List Piece) (text : List Char) : Option (List (List Char)) :=
  text.tails.findSome? (matchAt pieces)

variable {cls : Char → Bool} {atLeast : ℕ} {pieces : List Piece}
variable {text taken rest : List Char} {groups : List (List Char)}

/-! ## A text in the form of the pattern -/

/-- A run can be taken as a whole if what follows does not begin with a character of
the class. -/
theorem splits_cons (htaken : ∀ c ∈ taken, cls c = true) (hlength : atLeast ≤ taken.length)
    (hrest : ∀ c ∈ rest.head?, cls c = false) :
    ∃ shorter, splits cls atLeast (taken ++ rest) = (taken, rest) :: shorter := by
  have htake : (taken ++ rest).takeWhile cls = taken := by
    rw [List.takeWhile_append_of_pos htaken]
    cases rest with
    | nil => simp
    | cons c rest =>
        have hc : cls c = false := hrest c (by simp)
        rw [List.takeWhile_cons_of_neg (by simp [hc]), List.append_nil]
  rw [splits, htake, List.range_succ, List.filter_append, List.filter_singleton,
    decide_eq_true hlength, cond_true, List.reverse_append, List.reverse_singleton,
    List.singleton_append, List.map_cons, List.splitAt_eq, List.take_left, List.drop_left]
  exact ⟨_, rfl⟩

theorem matchAt_char (c : Char) (hmatch : matchAt pieces text = some groups) :
    matchAt (.char c :: pieces) (c :: text) = some groups := by
  rw [matchAt, if_pos rfl, hmatch]

theorem matchAt_run (htaken : ∀ c ∈ taken, cls c = true) (hlength : atLeast ≤ taken.length)
    (hrest : ∀ c ∈ rest.head?, cls c = false) (hmatch : matchAt pieces rest = some groups) :
    matchAt (.run cls atLeast :: pieces) (taken ++ rest) = some groups := by
  obtain ⟨shorter, hsplits⟩ := splits_cons htaken hlength hrest
  rw [matchAt, hsplits, List.findSome?_cons, hmatch]

theorem matchAt_group (htaken : ∀ c ∈ taken, cls c = true) (hlength : atLeast ≤ taken.length)
    (hrest : ∀ c ∈ rest.head?, cls c = false) (hmatch : matchAt pieces rest = some groups) :
    matchAt (.group cls atLeast :: pieces) (taken ++ rest) = some (taken :: groups) := by
  obtain ⟨shorter, hsplits⟩ := splits_cons htaken hlength hrest
  rw [matchAt, hsplits, List.findSome?_cons, hmatch, Option.map_some]

theorem search_of_matchAt (hmatch : matchAt pieces text = some groups) :
    search pieces text = some groups := by
  cases text with
  | nil => simp [search, hmatch]
  | cons c text => simp [search, hmatch]

end Pattern
