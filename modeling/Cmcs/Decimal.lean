import Cmcs.Lines
import Cmcs.Text
import Mathlib.Algebra.Order.Floor.Ring
import Mathlib.Algebra.Order.Round
import Mathlib.Data.Rat.Floor
import Mathlib.Tactic

/-!
# Decimal fractions

The conversion of a text to a rational as `float` reads it, and the rendering with a
fixed number of decimals, for which the value is rounded to the nearest decimal
fraction, to the even one of two.  Reading a rendered value gives the rounded value.
Digits are those of ASCII; `float` also takes the decimal digits of other scripts.
-/

namespace Decimal

open Text

/-! ## Rounding -/

def roundHalfEven (x : ℚ) : ℤ :=
  if Int.fract x < 1 / 2 ∨ Int.fract x = 1 / 2 ∧ Even ⌊x⌋ then ⌊x⌋ else ⌊x⌋ + 1

/-- `x` rounded to `n` decimals. -/
def rounded (n : ℕ) (x : ℚ) : ℚ := roundHalfEven (x * 10 ^ n) / 10 ^ n

/-- `z` is a nearest integer to `x`, and even if there are two. -/
structure Nearest (x : ℚ) (z : ℤ) : Prop where
  dist_le : |x - z| ≤ 1 / 2
  even_of_tie : |x - z| = 1 / 2 → Even z

theorem nearest_roundHalfEven (x : ℚ) : Nearest x (roundHalfEven x) := by
  have hfract : x = ⌊x⌋ + Int.fract x := (Int.floor_add_fract x).symm
  have hnonneg := Int.fract_nonneg x
  have hlt := Int.fract_lt_one x
  unfold roundHalfEven
  split
  next hdown =>
    have hdist : |x - (⌊x⌋ : ℤ)| = Int.fract x := by
      rw [← Int.fract, abs_of_nonneg hnonneg]
    constructor
    · rw [hdist]
      cases hdown with
      | inl hless => exact hless.le
      | inr htie => exact htie.1.le
    · intro htie
      rw [hdist] at htie
      cases hdown with
      | inl hless => exact absurd htie hless.ne
      | inr htie => exact htie.2
  next hup =>
    rw [not_or, not_lt, not_and] at hup
    have hdist : |x - ((⌊x⌋ + 1 : ℤ) : ℚ)| = 1 - Int.fract x := by
      rw [abs_sub_comm, abs_of_nonneg (by push_cast; linarith)]
      push_cast
      linarith
    constructor
    · rw [hdist]
      linarith [hup.1]
    · intro htie
      rw [hdist] at htie
      rw [Int.even_add_one]
      exact hup.2 (by linarith)

theorem Nearest.unique {x : ℚ} {z z' : ℤ} (hz : Nearest x z) (hz' : Nearest x z') : z = z' := by
  have hdist : |(z : ℚ) - z'| ≤ 1 := by
    have htriangle := abs_sub_le (z : ℚ) x z'
    have hfirst := hz.dist_le
    have hsecond := hz'.dist_le
    rw [abs_sub_comm] at hfirst
    linarith
  have hcases : |z - z'| ≤ 1 := by exact_mod_cast hdist
  by_contra hne
  have hone : |z - z'| = 1 := le_antisymm hcases (Int.one_le_abs (sub_ne_zero.mpr hne))
  have htie : |x - z| = 1 / 2 ∧ |x - z'| = 1 / 2 := by
    have htriangle := abs_sub_le (z : ℚ) x z'
    have hone' : |(z : ℚ) - z'| = 1 := by exact_mod_cast hone
    have hfirst := hz.dist_le
    have hsecond := hz'.dist_le
    have hswap := abs_sub_comm (z : ℚ) x
    constructor <;> linarith
  have heven := hz.even_of_tie htie.1
  have heven' := hz'.even_of_tie htie.2
  have hsub : Even (z - z') := heven.sub heven'
  rw [← even_abs, hone] at hsub
  exact absurd hsub (by decide)

theorem Nearest.neg {x : ℚ} {z : ℤ} (hz : Nearest x z) : Nearest (-x) (-z) := by
  have hdist : |-x - ((-z : ℤ) : ℚ)| = |x - z| := by
    rw [← abs_neg]
    push_cast
    ring_nf
  exact ⟨hdist ▸ hz.dist_le, fun htie => (hz.even_of_tie (hdist ▸ htie)).neg⟩

theorem roundHalfEven_neg (x : ℚ) : roundHalfEven (-x) = -roundHalfEven x :=
  (nearest_roundHalfEven (-x)).unique (nearest_roundHalfEven x).neg

theorem roundHalfEven_nonneg {x : ℚ} (hx : 0 ≤ x) : 0 ≤ roundHalfEven x := by
  have hfloor := Int.floor_nonneg.mpr hx
  unfold roundHalfEven
  split <;> omega

/-! ## Rendering -/

/-- The decimal fraction of `N` units of the last of `n` decimals. -/
def units (n N : ℕ) : List Char :=
  ofNat (N / 10 ^ n) ++ '.' :: (ofNat (N % 10 ^ n)).leftpad n '0'

/-- `'{:.nf}'.format(x)` for a positive `n`. -/
def fixed (n : ℕ) (x : ℚ) : List Char :=
  if x < 0 then '-' :: units n (roundHalfEven (-x * 10 ^ n)).toNat
  else units n (roundHalfEven (x * 10 ^ n)).toNat

/-! ## Reading -/

/-- Digits, between which there may be single underscores. -/
def digitPart (text : List Char) : Option (List Char) :=
  let groups := text.splitOn '_'
  if ∀ group ∈ groups, group ≠ [] ∧ group.all Char.isDigit then some groups.flatten else none

/-- A part which may be missing before or after the point. -/
def optionalPart (text : List Char) : Option (List Char) :=
  if text = [] then some [] else digitPart text

def number (text : List Char) : Option ℚ :=
  match text.splitOn '.' with
  | [whole] => (digitPart whole).map fun digits => (toNat digits : ℚ)
  | [whole, frac] =>
      if whole = [] ∧ frac = [] then none
      else do
        let digits ← optionalPart whole
        let decimals ← optionalPart frac
        some ((toNat digits : ℚ) + toNat decimals / 10 ^ decimals.length)
  | _ => none

def exponent : List Char → Option ℤ
  | '-' :: text => (digitPart text).map fun digits => -(toNat digits : ℤ)
  | '+' :: text => (digitPart text).map fun digits => (toNat digits : ℤ)
  | text => (digitPart text).map fun digits => (toNat digits : ℤ)

def unsigned (text : List Char) : Option ℚ :=
  match text.splitOnP fun c => c = 'e' || c = 'E' with
  | [mantissa] => number mantissa
  | [mantissa, power] => do
      let m ← number mantissa
      let e ← exponent power
      some (m * 10 ^ e)
  | _ => none

/-- `float(text)` for the texts of finite numbers; none is a `ValueError`. -/
def float (text : List Char) : Option ℚ :=
  match strip text with
  | '-' :: text => (unsigned text).map fun x => -x
  | '+' :: text => unsigned text
  | text => unsigned text

/-! ## Reading what was rendered -/

section RoundTrip

variable {digits frac : List Char} {n : ℕ}

theorem digitPart_of_digits (hne : digits ≠ []) (hdigits : ∀ c ∈ digits, c.isDigit = true) :
    digitPart digits = some digits := by
  have hsplit : digits.splitOn '_' = [digits] :=
    List.splitOn_eq_singleton fun hmem => absurd (hdigits _ hmem) (by decide)
  rw [digitPart, hsplit, if_pos]
  · simp
  · intro group hgroup
    rw [List.mem_singleton] at hgroup
    subst group
    exact ⟨hne, List.all_eq_true.mpr hdigits⟩

theorem unsigned_of_digits (hne : digits ≠ []) (hdigits : ∀ c ∈ digits, c.isDigit = true)
    (hne' : frac ≠ []) (hfrac : ∀ c ∈ frac, c.isDigit = true) :
    unsigned (digits ++ '.' :: frac) =
      some ((toNat digits : ℚ) + toNat frac / 10 ^ frac.length) := by
  have hplain : ∀ c ∈ digits ++ '.' :: frac, c.isDigit = true ∨ c = '.' := by
    intro c hc
    rw [List.mem_append, List.mem_cons] at hc
    rcases hc with hc | hc | hc
    · exact Or.inl (hdigits c hc)
    · exact Or.inr hc
    · exact Or.inl (hfrac c hc)
  have hexponent : ((digits ++ '.' :: frac).splitOnP fun c => c = 'e' || c = 'E') =
      [digits ++ '.' :: frac] := by
    refine List.splitOnP_eq_singleton fun c hc => ?_
    rw [Bool.or_eq_false_iff, decide_eq_false_iff_not, decide_eq_false_iff_not]
    cases hplain c hc with
    | inl hdigit =>
        constructor <;> rintro rfl <;> exact absurd hdigit (by decide)
    | inr hpoint =>
        subst c
        decide
  have hpoint : ∀ {part : List Char}, (∀ c ∈ part, c.isDigit = true) → '.' ∉ part :=
    fun hpart hmem => absurd (hpart _ hmem) (by decide)
  have hsplit : (digits ++ '.' :: frac).splitOn '.' = [digits, frac] := by
    rw [List.splitOn_append_cons_self_of_not_mem (hpoint hdigits),
      List.splitOn_eq_singleton (hpoint hfrac)]
  rw [unsigned, hexponent]
  simp only [number, hsplit, optionalPart, hne, hne', false_and, if_false,
    digitPart_of_digits hne hdigits, digitPart_of_digits hne' hfrac, Option.bind_eq_bind,
    Option.bind_some]

theorem isDigit_of_mem_leftpad {c : Char} {N : ℕ} (hc : c ∈ (ofNat N).leftpad n '0') :
    c.isDigit = true := by
  rw [List.leftpad, List.mem_append, List.mem_replicate] at hc
  rcases hc with ⟨-, rfl⟩ | hc
  · decide
  · exact isDigit_of_mem_ofNat hc

theorem toNat_leftpad (n N : ℕ) : toNat ((ofNat N).leftpad n '0') = N := by
  rw [List.leftpad, Text.toNat, Nat.ofDigitChars_append, Nat.ofDigitChars_replicate_zero, mul_zero]
  exact toNat_ofNat N

theorem length_leftpad {N : ℕ} (hn : 0 < n) (hN : N < 10 ^ n) :
    ((ofNat N).leftpad n '0').length = n := by
  have hlength : (ofNat N).length ≤ n := (Nat.length_toDigits_le_iff (by decide) hn).mpr hN
  rw [List.leftpad, List.length_append, List.length_replicate]
  omega

theorem unsigned_units (hn : 0 < n) (N : ℕ) : unsigned (units n N) = some ((N : ℚ) / 10 ^ n) := by
  have hmod : N % 10 ^ n < 10 ^ n := Nat.mod_lt _ (by positivity)
  have hlength := length_leftpad hn hmod
  rw [units, unsigned_of_digits (ofNat_ne_nil _) (fun c hc => isDigit_of_mem_ofNat hc)
    (List.ne_nil_of_length_pos (by omega)) (fun c hc => isDigit_of_mem_leftpad hc), toNat_ofNat,
    toNat_leftpad, hlength, Option.some.injEq]
  have hdiv : (N : ℚ) = 10 ^ n * (N / 10 ^ n : ℕ) + (N % 10 ^ n : ℕ) := by
    exact_mod_cast (Nat.div_add_mod N (10 ^ n)).symm
  have hpos : (0 : ℚ) < 10 ^ n := by positivity
  rw [eq_div_iff hpos.ne', add_mul, div_mul_cancel₀ _ hpos.ne']
  linarith

theorem not_isSpace_of_isDigit {c : Char} (hc : c.isDigit = true) : isSpace c = false := by
  have hrange := toNat_of_isDigit hc
  simp only [isSpace, List.mem_cons, List.not_mem_nil, or_false, decide_eq_false_iff_not]
  omega

theorem not_isSpace_of_mem_units {N : ℕ} {c : Char} (hc : c ∈ units n N) :
    isSpace c = false := by
  rw [units, List.mem_append, List.mem_cons] at hc
  rcases hc with hc | rfl | hc
  · exact not_isSpace_of_isDigit (isDigit_of_mem_ofNat hc)
  · decide
  · exact not_isSpace_of_isDigit (isDigit_of_mem_leftpad hc)

theorem exists_units_eq_cons (n N : ℕ) : ∃ d rest, units n N = d :: rest ∧ d.isDigit = true := by
  cases hdigits : ofNat (N / 10 ^ n) with
  | nil => exact absurd hdigits (ofNat_ne_nil _)
  | cons d digits =>
      refine ⟨d, digits ++ '.' :: (ofNat (N % 10 ^ n)).leftpad n '0', ?_, ?_⟩
      · rw [units, hdigits, List.cons_append]
      · exact isDigit_of_mem_ofNat (n := N / 10 ^ n) (hdigits ▸ List.mem_cons_self)

theorem float_units (hn : 0 < n) (N : ℕ) : float (units n N) = some ((N : ℚ) / 10 ^ n) := by
  rw [float, strip_eq_self fun c hc => not_isSpace_of_mem_units hc]
  obtain ⟨d, rest, heq, hd⟩ := exists_units_eq_cons n N
  rw [← unsigned_units hn, heq]
  split
  next hminus =>
    obtain ⟨rfl, -⟩ := List.cons.inj hminus
    exact absurd hd (by decide)
  next hplus =>
    obtain ⟨rfl, -⟩ := List.cons.inj hplus
    exact absurd hd (by decide)
  next => rfl

theorem float_neg_units (hn : 0 < n) (N : ℕ) :
    float ('-' :: units n N) = some (-((N : ℚ) / 10 ^ n)) := by
  have hspace : ∀ c ∈ '-' :: units n N, isSpace c = false := by
    intro c hc
    cases List.mem_cons.mp hc with
    | inl heq => exact heq ▸ (by decide)
    | inr hmem => exact not_isSpace_of_mem_units hmem
  rw [float, strip_eq_self hspace]
  simp [unsigned_units hn]

/-- Reading a rendered value gives it rounded to the decimals shown. -/
theorem float_fixed (hn : 0 < n) (x : ℚ) : float (fixed n x) = some (rounded n x) := by
  unfold fixed
  split
  next hneg =>
    have hnonneg := roundHalfEven_nonneg (show 0 ≤ -x * 10 ^ n by
      have hx : 0 ≤ -x := by linarith
      positivity)
    have hcast : ((roundHalfEven (-x * 10 ^ n)).toNat : ℚ) = roundHalfEven (-x * 10 ^ n) := by
      exact_mod_cast Int.toNat_of_nonneg hnonneg
    rw [float_neg_units hn, hcast, neg_mul, roundHalfEven_neg, Int.cast_neg, neg_div, neg_neg,
      rounded]
  next hle =>
    have hnonneg := roundHalfEven_nonneg (show 0 ≤ x * 10 ^ n by
      have hx : 0 ≤ x := not_lt.mp hle
      positivity)
    have hcast : ((roundHalfEven (x * 10 ^ n)).toNat : ℚ) = roundHalfEven (x * 10 ^ n) := by
      exact_mod_cast Int.toNat_of_nonneg hnonneg
    rw [float_units hn, hcast, rounded]

end RoundTrip

end Decimal
