import Mathlib.Data.BitVec
import Mathlib.Tactic

/-!
# Byte strings in hexadecimal

Strings of bytes, the number which they are from the most significant byte on, and
their texts with two digits for each byte.  A text of an even number of digits is a
string of bytes which is the same number.
-/

namespace HexBytes

/-! ## Numbers -/

/-- The number of the digits, the most significant first. -/
def number (base : ℕ) (digits : List ℕ) : ℕ := digits.foldl (fun n d => base * n + d) 0

theorem foldl_number (base : ℕ) (digits : List ℕ) (n : ℕ) :
    digits.foldl (fun n d => base * n + d) n =
      base ^ digits.length * n + number base digits := by
  induction digits generalizing n with
  | nil => simp [number]
  | cons d digits ih =>
      rw [number, List.foldl_cons, List.foldl_cons, ih, ih (base * 0 + d), List.length_cons]
      ring

theorem number_cons (base d : ℕ) (digits : List ℕ) :
    number base (d :: digits) = base ^ digits.length * d + number base digits := by
  rw [number, List.foldl_cons, foldl_number, Nat.mul_zero, Nat.zero_add]

theorem number_replicate_zero_append (base n : ℕ) (digits : List ℕ) :
    number base (List.replicate n 0 ++ digits) = number base digits := by
  induction n with
  | zero => rfl
  | succ n ih => rw [List.replicate_succ, List.cons_append, number_cons, ih, Nat.mul_zero,
      Nat.zero_add]

/-- The number of a string of bytes. -/
def value (bytes : List (BitVec 8)) : ℕ := number 256 (bytes.map BitVec.toNat)

theorem value_cons (byte : BitVec 8) (bytes : List (BitVec 8)) :
    value (byte :: bytes) = 256 ^ bytes.length * byte.toNat + value bytes := by
  rw [value, List.map_cons, number_cons, List.length_map]
  rfl

theorem value_lt (bytes : List (BitVec 8)) : value bytes < 256 ^ bytes.length := by
  induction bytes with
  | nil => exact Nat.one_pos
  | cons byte bytes ih =>
      have hbyte : byte.toNat + 1 ≤ 256 := byte.isLt
      calc value (byte :: bytes) = 256 ^ bytes.length * byte.toNat + value bytes := value_cons _ _
        _ < 256 ^ bytes.length * byte.toNat + 256 ^ bytes.length := by gcongr
        _ = 256 ^ bytes.length * (byte.toNat + 1) := by ring
        _ ≤ 256 ^ bytes.length * 256 := by gcongr
        _ = 256 ^ (byte :: bytes).length := by rw [List.length_cons, pow_succ]

/-- Strings of one length are told apart by their numbers. -/
theorem eq_of_value {bytes bytes' : List (BitVec 8)} (hlength : bytes.length = bytes'.length)
    (hvalue : value bytes = value bytes') : bytes = bytes' := by
  induction bytes generalizing bytes' with
  | nil => exact (List.length_eq_zero_iff.mp hlength.symm).symm
  | cons byte bytes ih =>
      cases bytes' with
      | nil => simp at hlength
      | cons byte' bytes' =>
          rw [List.length_cons, List.length_cons, Nat.succ_inj] at hlength
          rw [value_cons, value_cons, hlength] at hvalue
          have hlt := value_lt bytes
          have hlt' := value_lt bytes'
          rw [hlength] at hlt
          have hpos : 0 < 256 ^ bytes'.length := by positivity
          have hhead : byte.toNat = byte'.toNat := by
            have hdiv := congrArg (· / 256 ^ bytes'.length) hvalue
            simpa [Nat.mul_add_div hpos, Nat.div_eq_of_lt hlt, Nat.div_eq_of_lt hlt'] using hdiv
          rw [hhead, Nat.add_right_inj] at hvalue
          rw [BitVec.eq_of_toNat_eq hhead, ih hlength hvalue]

/-! ## Digits -/

/-- The value of a digit in either case. -/
def digitValue (c : Char) : Option ℕ :=
  if '0' ≤ c ∧ c ≤ '9' then some (c.toNat - 48)
  else if 'a' ≤ c ∧ c ≤ 'f' then some (c.toNat - 87)
  else if 'A' ≤ c ∧ c ≤ 'F' then some (c.toNat - 55)
  else none

/-- The digits of a text and their values. -/
def Digits (text : List Char) (digits : List ℕ) : Prop :=
  List.Forall₂ (fun c d => digitValue c = some d) text digits

theorem mapM_eq_some_iff {α β : Type*} {f : α → Option β} {l : List α} {l' : List β} :
    l.mapM f = some l' ↔ List.Forall₂ (fun a b => f a = some b) l l' := by
  induction l generalizing l' with
  | nil => simp [eq_comm]
  | cons a l ih =>
      rw [List.mapM_cons, List.forall₂_cons_left_iff]
      simp only [Option.pure_def, Option.bind_eq_bind, Option.bind_eq_some_iff, ih,
        Option.some.injEq]
      constructor
      · rintro ⟨b, hb, rest, hrest, rfl⟩
        exact ⟨b, rest, hb, hrest, rfl⟩
      · rintro ⟨b, rest, hb, hrest, rfl⟩
        exact ⟨b, hb, rest, hrest, rfl⟩

@[simp] theorem digitValue_digitChar {d : ℕ} (hd : d < 16) :
    digitValue d.digitChar = some d := by
  interval_cases d <;> decide

theorem lt_of_digitValue {c : Char} {d : ℕ} (hd : digitValue c = some d) : d < 16 := by
  unfold digitValue at hd
  simp only [Char.le_def, UInt32.le_iff_toNat_le] at hd
  split at hd
  next h =>
    obtain rfl := Option.some.inj hd
    have h9 : c.toNat ≤ 57 := h.2
    omega
  next =>
    split at hd
    next h =>
      obtain rfl := Option.some.inj hd
      have hf : c.toNat ≤ 102 := h.2
      omega
    next =>
      split at hd
      next h =>
        obtain rfl := Option.some.inj hd
        have hF : c.toNat ≤ 70 := h.2
        omega
      next => cases hd

/-- `'%x' % n`. -/
def ofNat (n : ℕ) : List Char := Nat.toDigits 16 n

theorem digits_ofNat (n : ℕ) : ∃ digits, Digits (ofNat n) digits ∧ number 16 digits = n := by
  induction n using Nat.strong_induction_on with
  | _ n ih =>
      by_cases hn : n < 16
      · refine ⟨[n], ?_, by simp [number]⟩
        rw [ofNat, Nat.toDigits_of_lt_base hn]
        exact List.Forall₂.cons (digitValue_digitChar hn) List.Forall₂.nil
      · obtain ⟨digits, hdigits, hnumber⟩ := ih (n / 16) (by omega)
        have hlast : n % 16 < 16 := Nat.mod_lt _ (by decide)
        refine ⟨digits ++ [n % 16], ?_, ?_⟩
        · rw [ofNat, Nat.toDigits_of_base_le (by decide) (by omega)]
          exact List.rel_append hdigits
            (List.Forall₂.cons (digitValue_digitChar hlast) List.Forall₂.nil)
        · rw [number, List.foldl_append, ← number, hnumber]
          simp only [List.foldl_cons, List.foldl_nil]
          omega

/-! ## Texts of bytes -/

def isSpace (c : Char) : Bool := c = ' ' ∨ 9 ≤ c.toNat ∧ c.toNat ≤ 13

/-- `bytes.fromhex`: two digits for a byte, with white space between the bytes. -/
def fromHex : List Char → Option (List (BitVec 8))
  | [] => some []
  | [c] => if isSpace c then some [] else none
  | c :: c' :: text =>
      if isSpace c then fromHex (c' :: text)
      else do
        let high ← digitValue c
        let low ← digitValue c'
        let bytes ← fromHex text
        some (BitVec.ofNat 8 (16 * high + low) :: bytes)

/-- `bytes.hex()`. -/
def hex (bytes : List (BitVec 8)) : List Char :=
  bytes.flatMap fun byte => [(byte.toNat / 16).digitChar, (byte.toNat % 16).digitChar]

/-- `int(text, 16)` for a text of digits; none is a `ValueError`. -/
def toNat (text : List Char) : Option ℕ :=
  if text = [] then none else (text.mapM digitValue).map (number 16)

theorem isSpace_of_digitValue {c : Char} {d : ℕ} (hd : digitValue c = some d) :
    isSpace c = false := by
  have hcode : 48 ≤ c.toNat := by
    unfold digitValue at hd
    simp only [Char.le_def, UInt32.le_iff_toNat_le] at hd
    split at hd
    next h => exact h.1
    next =>
      split at hd
      next h => exact le_trans (by decide) h.1
      next =>
        split at hd
        next h => exact le_trans (by decide) h.1
        next => cases hd
  have hblank : c ≠ ' ' := by
    rintro rfl
    exact absurd hcode (by decide)
  simp only [isSpace, hblank, false_or, decide_eq_false_iff_not]
  omega

theorem fromHex_cons {c c' : Char} {high low : ℕ} (hc : digitValue c = some high)
    (hc' : digitValue c' = some low) (text : List Char) :
    fromHex (c :: c' :: text) =
      (fromHex text).map fun bytes => BitVec.ofNat 8 (16 * high + low) :: bytes := by
  rw [fromHex, isSpace_of_digitValue hc, hc, hc']
  cases fromHex text <;> rfl

theorem fromHex_of_digits {n : ℕ} {text : List Char} {digits : List ℕ}
    (hdigits : Digits text digits) (hlength : text.length = 2 * n) :
    ∃ bytes, fromHex text = some bytes ∧ bytes.length = n ∧ value bytes = number 16 digits := by
  induction n generalizing text digits with
  | zero =>
      obtain rfl := List.length_eq_zero_iff.mp hlength
      obtain rfl := List.forall₂_nil_left_iff.mp hdigits
      exact ⟨[], rfl, rfl, rfl⟩
  | succ n ih =>
      cases hdigits with
      | nil => simp at hlength
      | @cons c high _ _ hhigh htail =>
          cases htail with
          | nil =>
              rw [List.length_singleton] at hlength
              omega
          | @cons c' low rest digits hlow hrest =>
              have hlength' : rest.length = 2 * n := by
                rw [List.length_cons, List.length_cons] at hlength
                omega
              obtain ⟨bytes, hbytes, hcount, hvalue⟩ := ih hrest hlength'
              refine ⟨BitVec.ofNat 8 (16 * high + low) :: bytes, ?_,
                by rw [List.length_cons, hcount], ?_⟩
              · rw [fromHex_cons hhigh hlow, hbytes, Option.map_some]
              · have hbyte : 16 * high + low < 2 ^ 8 := by
                  have hlt := lt_of_digitValue hhigh
                  have hlt' := lt_of_digitValue hlow
                  omega
                have hcount' : digits.length = 2 * bytes.length := by
                  rw [hcount, ← hlength', hrest.length_eq]
                have hpow : (16 : ℕ) ^ (2 * bytes.length) = 256 ^ bytes.length := by
                  rw [pow_mul]
                  norm_num
                rw [value_cons, number_cons, number_cons, hvalue, BitVec.toNat_ofNat,
                  Nat.mod_eq_of_lt hbyte, List.length_cons, hcount', pow_succ, hpow]
                ring

theorem digits_zeros_append {text : List Char} {digits : List ℕ} (hdigits : Digits text digits)
    (k : ℕ) : Digits (List.replicate k '0' ++ text) (List.replicate k 0 ++ digits) := by
  induction k with
  | zero => exact hdigits
  | succ k ih => exact List.Forall₂.cons (by decide) ih

/-- A number in digits, filled up from the left, is read as the bytes of the number. -/
theorem fromHex_padded {n width : ℕ} (hwidth : 0 < width) (hn : n < 256 ^ width) :
    ∃ bytes, fromHex (List.replicate (width * 2 - (ofNat n).length) '0' ++ ofNat n) =
      some bytes ∧ bytes.length = width ∧ value bytes = n := by
  obtain ⟨digits, hdigits, hnumber⟩ := digits_ofNat n
  have hpow : (16 : ℕ) ^ (width * 2) = 256 ^ width := by
    rw [mul_comm, pow_mul]
    norm_num
  have hlength : (ofNat n).length ≤ width * 2 :=
    (Nat.length_toDigits_le_iff (by decide) (by omega)).mpr (hpow ▸ hn)
  obtain ⟨bytes, hbytes, hcount, hvalue⟩ := fromHex_of_digits
    (digits_zeros_append hdigits (width * 2 - (ofNat n).length))
    (show _ = 2 * width by
      rw [List.length_append, List.length_replicate]
      omega)
  exact ⟨bytes, hbytes, hcount, by rw [hvalue, number_replicate_zero_append, hnumber]⟩

theorem digits_hex (bytes : List (BitVec 8)) :
    ∃ digits, Digits (hex bytes) digits ∧ number 16 digits = value bytes ∧
      digits.length = 2 * bytes.length := by
  induction bytes with
  | nil => exact ⟨[], List.Forall₂.nil, rfl, rfl⟩
  | cons byte bytes ih =>
      obtain ⟨digits, hdigits, hnumber, hlength⟩ := ih
      have hbyte := byte.isLt
      refine ⟨byte.toNat / 16 :: byte.toNat % 16 :: digits, ?_, ?_, ?_⟩
      · exact List.Forall₂.cons (digitValue_digitChar (by omega))
          (List.Forall₂.cons (digitValue_digitChar (by omega)) hdigits)
      · have hpow : (16 : ℕ) ^ (2 * bytes.length) = 256 ^ bytes.length := by
          rw [pow_mul]
          norm_num
        have hsplit : byte.toNat = 16 * (byte.toNat / 16) + byte.toNat % 16 := by omega
        rw [number_cons, number_cons, hnumber, value_cons, List.length_cons, hlength, pow_succ,
          hpow]
        conv_rhs => rw [hsplit]
        ring
      · simp only [List.length_cons, hlength]
        ring

theorem toNat_of_digits {text : List Char} {digits : List ℕ} (hne : text ≠ [])
    (hdigits : Digits text digits) : toNat text = some (number 16 digits) := by
  rw [toNat, if_neg hne, mapM_eq_some_iff.mpr hdigits, Option.map_some]

theorem fromHex_hex (bytes : List (BitVec 8)) : fromHex (hex bytes) = some bytes := by
  obtain ⟨digits, hdigits, hnumber, hlength⟩ := digits_hex bytes
  obtain ⟨bytes', hbytes, hcount, hvalue⟩ :=
    fromHex_of_digits hdigits (hdigits.length_eq.trans hlength)
  rw [hbytes, eq_of_value hcount (hvalue.trans hnumber)]

end HexBytes
