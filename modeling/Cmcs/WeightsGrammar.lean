import Cmcs.Text
import Cmcs.VnWeightsOption
import Mathlib.Tactic

/-!
# The grammar of `--vn-weights`

`main` promises an error on malformed input.  As `std::stoi` converts the front
of its token and ignores the rest, the promise is kept exactly for the arguments
in which some token does not begin with a positive weight at all, or every token
is a weight and nothing else.
-/

namespace Cmcs

open CheckedInt

/-- A complete literal, and its value in the range of a weight. -/
structure Literal (token : List Char) (w : ℤ) : Prop where
  spelling : ∃ sign digits, (sign = [] ∨ sign = ['+']) ∧ digits ≠ [] ∧
    (∀ c ∈ digits, c.isDigit = true) ∧ token = sign ++ digits ∧ w = decimal digits
  range : 1 ≤ w ∧ w ≤ 2 ^ 31 - 1

/-- A literal after white space, and whatever follows its last digit. -/
def BeginsWith (token : List Char) (w : ℤ) : Prop :=
  ∃ space literal rest, token = space ++ literal ++ rest ∧
    (∀ c ∈ space, isSpace c = true) ∧ (∀ c ∈ rest.head?, c.isDigit = false) ∧
    Literal literal w

/-- The tokens of the argument, without blanks around them and without the empty
ones. -/
def weightTokens (value : List Char) : List (List Char) :=
  ((value.splitOn ',').map strip).filter (· ≠ [])

def Grammar (value : List Char) (vnWeights : List ℤ) : Prop :=
  weightTokens value ≠ [] ∧ List.Forall₂ Literal (weightTokens value) vnWeights

/-- The argument which `P4RuntimeSwitch.start` appends. -/
def serialise (vnWeights : List ℤ) : List Char :=
  [','].intercalate (vnWeights.map Text.ofInt)

/-! ## One token -/

theorem isSpace_of_isDigit {c : Char} (hc : c.isDigit = true) : isSpace c = false := by
  have hrange := Text.toNat_of_isDigit hc
  have hspace : c ≠ ' ' := by
    rintro rfl
    exact absurd hc (by decide)
  simp only [isSpace, hspace, false_or, decide_eq_false_iff_not]
  omega

theorem decimal_eq_toNat (digits : List Char) : decimal digits = Text.toNat digits := by
  rw [Text.toNat, Nat.ofDigitChars_eq_foldl]
  rfl

theorem unsign_cons_of_isDigit {c : Char} {rest : List Char} (hc : c.isDigit = true) :
    unsign (c :: rest) = (1, c :: rest) := by
  have hminus : c ≠ '-' := by
    rintro rfl
    exact absurd hc (by decide)
  have hplus : c ≠ '+' := by
    rintro rfl
    exact absurd hc (by decide)
  unfold unsign
  split <;> simp_all

theorem takeWhile_append_of_head {digits rest : List Char}
    (hdigits : ∀ c ∈ digits, c.isDigit = true)
    (hrest : ∀ c ∈ rest.head?, c.isDigit = false) :
    (digits ++ rest).takeWhile Char.isDigit = digits := by
  rw [List.takeWhile_append_of_pos hdigits]
  cases rest with
  | nil => simp
  | cons c rest => rw [List.takeWhile_cons, hrest c rfl]; simp

theorem fits_of_range {w : ℤ} (hrange : 1 ≤ w ∧ w ≤ 2 ^ 31 - 1) : Fits 32 w := by
  rw [fits_32_iff]
  omega

theorem stoi_of_literal {space literal rest : List Char} {w : ℤ}
    (hspace : ∀ c ∈ space, isSpace c = true)
    (hrest : ∀ c ∈ rest.head?, c.isDigit = false) (hliteral : Literal literal w) :
    stoi (space ++ literal ++ rest) = .ok w := by
  obtain ⟨⟨sign, digits, hsign, hne, hdigits, rfl, rfl⟩, hrange⟩ := hliteral
  obtain ⟨c, more, hcons⟩ := List.exists_cons_of_ne_nil hne
  have hc : c.isDigit = true := hdigits c (by simp [hcons])
  have hskip : (space ++ (sign ++ digits) ++ rest).dropWhile isSpace =
      sign ++ (digits ++ rest) := by
    rw [List.append_assoc, List.dropWhile_append_of_pos hspace, List.append_assoc]
    cases hsign with
    | inl hnone => simp [hnone, hcons, isSpace_of_isDigit hc]
    | inr hplus =>
        rw [hplus]
        rfl
  have hunsign : unsign (sign ++ (digits ++ rest)) = (1, digits ++ rest) := by
    cases hsign with
    | inl hnone =>
        rw [hnone, hcons]
        exact unsign_cons_of_isDigit hc
    | inr hplus =>
        rw [hplus]
        rfl
  unfold stoi
  rw [hskip, hunsign]
  simp only [takeWhile_append_of_head hdigits hrest, if_neg hne, one_mul,
    if_pos (fits_of_range hrange)]

theorem unsign_cases (l : List Char) :
    (unsign l).1 = -1 ∨ (unsign l).1 = 1 ∧
      ∃ sign, (sign = [] ∨ sign = ['+']) ∧ l = sign ++ (unsign l).2 := by
  unfold unsign
  split
  · exact Or.inl rfl
  · exact Or.inr ⟨rfl, ['+'], Or.inr rfl, rfl⟩
  · exact Or.inr ⟨rfl, [], Or.inl rfl, rfl⟩

theorem beginsWith_of_stoi {token : List Char} {w : ℤ} (hstoi : stoi token = .ok w)
    (hpos : 0 < w) : BeginsWith token w := by
  have hfits := fits_of_stoi hstoi
  rw [fits_32_iff] at hfits
  have hcut : ∀ l : List Char, l.takeWhile Char.isDigit ++ l.dropWhile Char.isDigit = l :=
    fun l => List.takeWhile_append_dropWhile
  have hrest : ∀ l : List Char, ∀ c ∈ (l.dropWhile Char.isDigit).head?,
      c.isDigit = false := by
    intro l c hc
    simpa [Option.mem_def.mp hc] using List.head?_dropWhile_not Char.isDigit l
  simp only [stoi] at hstoi
  split at hstoi
  next => simp at hstoi
  next hne =>
  split at hstoi
  next =>
    simp only [Except.ok.injEq] at hstoi
    cases unsign_cases (token.dropWhile isSpace) with
    | inl hminus =>
        rw [hminus] at hstoi
        omega
    | inr hplus =>
        obtain ⟨hone, sign, hsign, hskip⟩ := hplus
        generalize (unsign (token.dropWhile isSpace)).2 = rest at hne hstoi hskip
        rw [hone, one_mul] at hstoi
        refine ⟨token.takeWhile isSpace, sign ++ rest.takeWhile Char.isDigit,
          rest.dropWhile Char.isDigit, ?_, ?_, hrest rest, ⟨sign,
            rest.takeWhile Char.isDigit, hsign, hne, ?_, rfl, hstoi.symm⟩, by omega⟩
        · rw [List.append_assoc, List.append_assoc, hcut, ← hskip,
            List.takeWhile_append_dropWhile]
        · intro c hc
          exact List.mem_takeWhile_imp hc
        · intro c hc
          exact List.mem_takeWhile_imp hc
  next => simp at hstoi

theorem stoi_eq_ok_iff {token : List Char} {w : ℤ} :
    stoi token = .ok w ∧ 0 < w ↔ BeginsWith token w := by
  constructor
  · intro hstoi
    exact beginsWith_of_stoi hstoi.1 hstoi.2
  · intro hbegins
    obtain ⟨space, literal, rest, rfl, hspace, hrest, hliteral⟩ := hbegins
    have hpos := hliteral.range.1
    exact ⟨stoi_of_literal hspace hrest hliteral, by omega⟩

theorem Literal.beginsWith {token : List Char} {w : ℤ} (hliteral : Literal token w) :
    BeginsWith token w :=
  ⟨[], token, [], by simp, by simp, by simp, hliteral⟩

theorem BeginsWith.unique {token : List Char} {v w : ℤ} (hv : BeginsWith token v)
    (hw : BeginsWith token w) : v = w := by
  have heq := (stoi_eq_ok_iff.mpr hv).1.symm.trans (stoi_eq_ok_iff.mpr hw).1
  exact Except.ok.inj heq

/-! ## The loop -/

/-- The loop accepts the tokens which begin with a weight. -/
theorem parseTokens_eq_ok_iff {tokens : List (List Char)} {start vnWeights : List ℤ} :
    parseTokens tokens start = .ok vnWeights ↔
      ∃ read, vnWeights = start ++ read ∧
        List.Forall₂ BeginsWith ((tokens.map strip).filter (· ≠ [])) read := by
  induction tokens generalizing start with
  | nil =>
      simp only [parseTokens, Except.ok.injEq, List.map_nil, List.filter_nil,
        List.forall₂_nil_left_iff]
      constructor
      · intro heq
        exact ⟨[], by simp [heq], rfl⟩
      · rintro ⟨read, rfl, rfl⟩
        simp
  | cons token tokens ih =>
      rw [parseTokens, List.map_cons]
      by_cases hempty : strip token = []
      · rw [if_pos hempty, ih, List.filter_cons_of_neg (by simp [hempty])]
      · rw [if_neg hempty, List.filter_cons_of_pos (by simp [hempty])]
        constructor
        · intro hparse
          cases hstoi : stoi (strip token) with
          | error e => simp [hstoi] at hparse
          | ok w =>
              simp only [hstoi] at hparse
              split at hparse
              next => simp at hparse
              next hpos =>
                obtain ⟨read, hread, htokens⟩ := ih.mp hparse
                refine ⟨w :: read, by simp [hread], List.Forall₂.cons ?_ htokens⟩
                exact stoi_eq_ok_iff.mp ⟨hstoi, not_le.mp hpos⟩
        · intro haccepted
          obtain ⟨read, hread, htokens⟩ := haccepted
          cases htokens with
          | cons hfirst htokens =>
              obtain ⟨hstoi, hpos⟩ := stoi_eq_ok_iff.mpr hfirst
              simp only [hstoi, if_neg (not_le.mpr hpos)]
              exact ih.mpr ⟨_, by simp [hread], htokens⟩

theorem parseVnWeights_eq_ok_iff {value : List Char} {vnWeights : List ℤ} :
    parseVnWeights (.success value) = .ok vnWeights ↔
      weightTokens value ≠ [] ∧
        List.Forall₂ BeginsWith (weightTokens value) vnWeights := by
  have hloop : parseTokens (value.splitOn ',') [] = .ok vnWeights ↔
      List.Forall₂ BeginsWith (weightTokens value) vnWeights := by
    rw [parseTokens_eq_ok_iff]
    simp [weightTokens]
  have hnil : List.Forall₂ BeginsWith (weightTokens value) vnWeights →
      (vnWeights = [] ↔ weightTokens value = []) := by
    intro htokens
    rw [← List.length_eq_zero_iff, ← List.length_eq_zero_iff, htokens.length_eq]
  constructor
  · intro hparse
    have hne := parseVnWeights_ne_nil hparse
    simp only [parseVnWeights] at hparse
    cases htokens : parseTokens (value.splitOn ',') [] with
    | error e => simp [htokens] at hparse
    | ok read =>
        simp only [htokens] at hparse
        split at hparse
        next => simp at hparse
        next =>
          rw [Except.ok.inj hparse] at htokens
          have hall := hloop.mp htokens
          exact ⟨mt (hnil hall).mpr hne, hall⟩
  · intro haccepted
    obtain ⟨hne, hall⟩ := haccepted
    simp only [parseVnWeights, hloop.mpr hall]
    rw [if_neg (mt (hnil hall).mp hne)]

theorem exists_forall₂_iff {α β : Type*} {R : α → β → Prop} {l : List α} :
    (∃ l', List.Forall₂ R l l') ↔ ∀ x ∈ l, ∃ y, R x y := by
  induction l with
  | nil => simp
  | cons x l ih => simp [List.forall₂_cons_left_iff, ← ih]

/-! ## The argument of `P4RuntimeSwitch.start` -/

theorem strip_of_not_blank {token : List Char} (hblank : ∀ c ∈ token, isBlank c = false) :
    strip token = token := by
  have hskip : token.dropWhile isBlank = token := by
    rw [List.dropWhile_eq_self_iff]
    intro hlength
    simp [hblank _ (List.getElem_mem hlength)]
  rw [strip, hskip, List.rdropWhile_eq_self_iff]
  intro hne
  simp [hblank _ (List.getLast_mem hne)]

theorem isBlank_of_isDigit {c : Char} (hc : c.isDigit = true) : isBlank c = false := by
  rw [isBlank, decide_eq_false_iff_not]
  rintro (rfl | rfl) <;> exact absurd hc (by decide)

theorem literal_ofInt {w : ℤ} (hrange : 1 ≤ w ∧ w ≤ 2 ^ 31 - 1) :
    Literal (Text.ofInt w) w := by
  have hrender : Text.ofInt w = Text.ofNat w.natAbs := Text.ofInt_of_nonneg (by omega)
  refine ⟨⟨[], Text.ofNat w.natAbs, Or.inl rfl, Text.ofNat_ne_nil _, ?_, hrender, ?_⟩, hrange⟩
  · intro c hc
    exact Text.isDigit_of_mem_ofNat hc
  · rw [decimal_eq_toNat, Text.toNat_ofNat]
    omega

theorem weightTokens_serialise {vnWeights : List ℤ} (hne : vnWeights ≠ [])
    (hpos : ∀ w ∈ vnWeights, 0 ≤ w) :
    weightTokens (serialise vnWeights) = vnWeights.map Text.ofInt := by
  have hdigits : ∀ token ∈ vnWeights.map Text.ofInt, ∀ c ∈ token, c.isDigit = true := by
    intro token htoken c hc
    obtain ⟨w, hw, rfl⟩ := List.mem_map.mp htoken
    rw [Text.ofInt_of_nonneg (hpos w hw)] at hc
    exact Text.isDigit_of_mem_ofNat hc
  have hcomma : ∀ token ∈ vnWeights.map Text.ofInt, ',' ∉ token := by
    intro token htoken hmem
    exact absurd (hdigits token htoken ',' hmem) (by decide)
  rw [weightTokens, serialise, List.splitOn_intercalate ',' hcomma (by simpa using hne)]
  have hstrip : (vnWeights.map Text.ofInt).map strip = vnWeights.map Text.ofInt := by
    rw [List.map_congr_left fun token htoken =>
      strip_of_not_blank fun c hc => isBlank_of_isDigit (hdigits token htoken c hc)]
    exact List.map_id' _
  rw [hstrip, List.filter_eq_self]
  intro token htoken
  obtain ⟨w, -, rfl⟩ := List.mem_map.mp htoken
  simp [Text.ofInt_ne_nil]

/-- The parser accepts its grammar and nothing else at an argument exactly when some
token of it does not begin with a weight or every token is a complete literal.
What `P4RuntimeSwitch.start` makes of 32-bit weights is always read back. -/
theorem parseVnWeights_grammar_iff (value : List Char) (weights : List ℤ) :
    ((∀ vnWeights, parseVnWeights (.success value) = .ok vnWeights ↔
        Grammar value vnWeights) ↔
      ((∀ token ∈ weightTokens value, ∃ w, BeginsWith token w) →
        ∀ token ∈ weightTokens value, ∃ w, Literal token w)) ∧
    (weights ≠ [] → (∀ w ∈ weights, 1 ≤ w ∧ w ≤ 2 ^ 31 - 1) →
      parseVnWeights (.success (serialise weights)) = .ok weights) := by
  refine ⟨⟨?_, ?_⟩, ?_⟩
  · intro hexact hbegins
    by_cases hne : weightTokens value = []
    · simp [hne]
    · obtain ⟨read, hread⟩ := exists_forall₂_iff.mpr hbegins
      have hgrammar := (hexact read).mp (parseVnWeights_eq_ok_iff.mpr ⟨hne, hread⟩)
      exact exists_forall₂_iff.mp ⟨read, hgrammar.2⟩
  · intro hcomplete vnWeights
    rw [parseVnWeights_eq_ok_iff]
    constructor
    · intro haccepted
      obtain ⟨hne, hbegins⟩ := haccepted
      have hliterals := hcomplete (exists_forall₂_iff.mp ⟨vnWeights, hbegins⟩)
      obtain ⟨read, hread⟩ := exists_forall₂_iff.mpr hliterals
      have hunique : Relator.RightUnique BeginsWith := fun _ _ _ => BeginsWith.unique
      have hsame : read = vnWeights :=
        hunique.forall₂ (hread.imp fun _ _ => Literal.beginsWith) hbegins
      exact ⟨hne, hsame ▸ hread⟩
    · intro hgrammar
      exact ⟨hgrammar.1, hgrammar.2.imp fun _ _ => Literal.beginsWith⟩
  · intro hne hrange
    have hpos : ∀ w ∈ weights, 0 ≤ w := by
      intro w hw
      have hw := hrange w hw
      omega
    rw [parseVnWeights_eq_ok_iff, weightTokens_serialise hne hpos, List.forall₂_map_left_iff,
      List.forall₂_same]
    exact ⟨by simpa using hne, fun w hw => (literal_ofInt (hrange w hw)).beginsWith⟩

/-- A list with a fractional weight is altered instead of rejected. -/
theorem parseVnWeights_altered :
    parseVnWeights (.success "1.5,2".toList) = .ok [1, 2] ∧
      ¬Grammar "1.5,2".toList [1, 2] := by
  constructor
  · decide +kernel
  · intro hgrammar
    have htokens : weightTokens "1.5,2".toList = ["1.5".toList, "2".toList] := by
      decide +kernel
    have hfirst := hgrammar.2
    rw [htokens] at hfirst
    cases hfirst with
    | cons hliteral _ =>
        obtain ⟨sign, digits, hsign, -, hdigits, htoken, -⟩ := hliteral.spelling
        have hdot : '.' ∈ sign ++ digits := htoken ▸ (by decide)
        cases List.mem_append.mp hdot with
        | inl hmem => rcases hsign with rfl | rfl <;> simp at hmem
        | inr hmem => exact absurd (hdigits '.' hmem) (by decide)

theorem parseVnWeights_serialised :
    parseVnWeights (.success (serialise [1, 2, 2147483647])) = .ok [1, 2, 2147483647] :=
  (parseVnWeights_grammar_iff [] [1, 2, 2147483647]).2 (by simp) (by simp)

end Cmcs
