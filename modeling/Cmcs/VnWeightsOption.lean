import Cmcs.CheckedInt
import Cmcs.QueueingLogicVN
import Mathlib.Data.List.DropRight
import Mathlib.Tactic

/-!
# The option `--vn-weights`

How `main` turns the argument into the weights of the constructor.  `std::stoi`
reads an integer off the front of its token and ignores what follows it.

A string is the list of its characters.  `std::getline` yields no token for what
follows a trailing comma, where splitting yields an empty one, which the loop
skips like every empty token.
-/

namespace Cmcs

open CheckedInt

/-! ## `std::stoi` -/

inductive StoiError
  | invalidArgument
  | outOfRange
  deriving DecidableEq

/-- `isspace`: the space and the controls from the tab to the carriage return. -/
def isSpace (c : Char) : Bool := c = ' ' ∨ 9 ≤ c.toNat ∧ c.toNat ≤ 13

def decimal (digits : List Char) : ℕ :=
  digits.foldl (fun n c => 10 * n + (c.toNat - 48)) 0

/-- The optional sign, and what follows it. -/
def unsign : List Char → ℤ × List Char
  | '-' :: rest => (-1, rest)
  | '+' :: rest => (1, rest)
  | rest => (1, rest)

def stoi (token : List Char) : Except StoiError ℤ :=
  let (sign, rest) := unsign (token.dropWhile isSpace)
  let digits := rest.takeWhile Char.isDigit
  if digits = [] then .error .invalidArgument
  else if Fits 32 (sign * decimal digits) then .ok (sign * decimal digits)
  else .error .outOfRange

/-! ## The loop over the tokens -/

/-- What `get_string_option` returns. -/
inductive StringOption
  | notProvided
  | failure
  | success (value : List Char)

/-- The ways to `std::exit(1)`. -/
inductive WeightsError
  | option
  | notPositive
  | invalidToken (token : List Char)
  | empty
  deriving DecidableEq

/-- What is written to `std::cerr`. -/
def WeightsError.message : WeightsError → String
  | .option => ""
  | .notPositive => "--vn-weights: all weights must be > 0\n"
  | .invalidToken token =>
      "--vn-weights: invalid token \"" ++ String.ofList token ++ "\"\n"
  | .empty => "--vn-weights: no valid weights parsed\n"

def isBlank (c : Char) : Bool := c = ' ' ∨ c = '\t'

def strip (token : List Char) : List Char := (token.dropWhile isBlank).rdropWhile isBlank

def parseTokens : List (List Char) → List ℤ → Except WeightsError (List ℤ)
  | [], vnWeights => .ok vnWeights
  | token :: tokens, vnWeights =>
      if strip token = [] then parseTokens tokens vnWeights
      else
        match stoi (strip token) with
        | .error _ => .error (.invalidToken (strip token))
        | .ok w =>
            if w ≤ 0 then .error .notPositive
            else parseTokens tokens (vnWeights ++ [w])

def parseVnWeights : StringOption → Except WeightsError (List ℤ)
  | .notProvided => .ok [1]
  | .failure => .error .option
  | .success value =>
      match parseTokens (value.splitOn ',') [] with
      | .error e => .error e
      | .ok vnWeights => if vnWeights = [] then .error .empty else .ok vnWeights

/-! ## What the parser accepts -/

theorem fits_of_stoi {token : List Char} {x : ℤ} (hstoi : stoi token = .ok x) : Fits 32 x := by
  simp only [stoi] at hstoi
  split at hstoi
  next => simp at hstoi
  next =>
    split at hstoi
    next hfits =>
      simp only [Except.ok.injEq] at hstoi
      rwa [hstoi] at hfits
    next => simp at hstoi

theorem parseTokens_weights {tokens : List (List Char)} {start vnWeights : List ℤ}
    (hparse : parseTokens tokens start = .ok vnWeights)
    (hstart : ∀ w ∈ start, 0 < w ∧ Fits 32 w) : ∀ w ∈ vnWeights, 0 < w ∧ Fits 32 w := by
  induction tokens generalizing start with
  | nil =>
      simp only [parseTokens, Except.ok.injEq] at hparse
      rwa [← hparse]
  | cons token tokens ih =>
      rw [parseTokens] at hparse
      split at hparse
      next => exact ih hparse hstart
      next =>
        cases hstoi : stoi (strip token) with
        | error e => simp [hstoi] at hparse
        | ok x =>
            simp only [hstoi] at hparse
            split at hparse
            next => simp at hparse
            next hpos =>
              refine ih hparse ?_
              intro w hw
              cases List.mem_append.mp hw with
              | inl hmem => exact hstart w hmem
              | inr hlast =>
                  rw [List.mem_singleton.mp hlast]
                  exact ⟨not_le.mp hpos, fits_of_stoi hstoi⟩

theorem parseVnWeights_weights {opt : StringOption} {vnWeights : List ℤ}
    (hparse : parseVnWeights opt = .ok vnWeights) : ∀ w ∈ vnWeights, 0 < w ∧ Fits 32 w := by
  cases opt with
  | notProvided =>
      simp only [parseVnWeights, Except.ok.injEq] at hparse
      rw [← hparse]
      decide
  | failure => simp [parseVnWeights] at hparse
  | success value =>
      simp only [parseVnWeights] at hparse
      split at hparse
      next => simp at hparse
      next vnWeights' htokens =>
        split at hparse
        next => simp at hparse
        next =>
          simp only [Except.ok.injEq] at hparse
          rw [← hparse]
          exact parseTokens_weights htokens (by simp)

theorem parseVnWeights_ne_nil {opt : StringOption} {vnWeights : List ℤ}
    (hparse : parseVnWeights opt = .ok vnWeights) : vnWeights ≠ [] := by
  cases opt with
  | notProvided =>
      simp only [parseVnWeights, Except.ok.injEq] at hparse
      simp [← hparse]
  | failure => simp [parseVnWeights] at hparse
  | success value =>
      simp only [parseVnWeights] at hparse
      split at hparse
      next => simp at hparse
      next =>
        split at hparse
        next => simp at hparse
        next hne =>
          simp only [Except.ok.injEq] at hparse
          rwa [← hparse]

/-- The constructor's arguments, with the weights of the option. -/
def Config.parsed {m : ℕ} (mapToWorker : ℕ → Fin m) {opt : StringOption}
    {vnWeights : List ℤ} (hparse : parseVnWeights opt = .ok vnWeights) :
    Config m vnWeights.length where
  mapToWorker := mapToWorker
  vnWeights i := vnWeights.get i
  vnWeights_pos i := (parseVnWeights_weights hparse _ (List.get_mem vnWeights i)).1

example : parseVnWeights (.success " 1, 2,,+5\t,10x,".toList) = .ok [1, 2, 5, 10] := by
  decide +kernel

example : parseVnWeights (.success "2147483648".toList) =
    .error (.invalidToken "2147483648".toList) := by
  decide +kernel

end Cmcs
