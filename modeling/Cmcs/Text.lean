import Mathlib.Data.Int.Basic
import Mathlib.Tactic

/-!
# Text

Strings as lists of characters: the decimal rendering of integers, which is
injective, and what follows of it for texts in which numbers stand between
separators.
-/

namespace Text

def ofNat (n : ℕ) : List Char := Nat.toDigits 10 n

def ofInt (z : ℤ) : List Char := if z < 0 then '-' :: ofNat z.natAbs else ofNat z.natAbs

/-- The value of a string of digits. -/
def toNat (digits : List Char) : ℕ := Nat.ofDigitChars 10 digits 0

@[simp] theorem toNat_ofNat (n : ℕ) : toNat (ofNat n) = n :=
  Nat.ofDigitChars_ten_toDigits

theorem ofNat_injective : Function.Injective ofNat :=
  Function.LeftInverse.injective toNat_ofNat

theorem ofNat_ne_nil (n : ℕ) : ofNat n ≠ [] := Nat.toDigits_ne_nil

theorem toNat_of_isDigit {c : Char} (hc : c.isDigit = true) : 48 ≤ c.toNat ∧ c.toNat ≤ 57 := by
  simpa [Char.isDigit, UInt32.le_iff_toNat_le] using hc

theorem isDigit_of_mem_ofNat {n : ℕ} {c : Char} (hc : c ∈ ofNat n) : c.isDigit = true :=
  Nat.isDigit_of_mem_toDigits (by decide) (by decide) hc

theorem ofInt_of_nonneg {z : ℤ} (hz : 0 ≤ z) : ofInt z = ofNat z.natAbs :=
  if_neg (not_lt.mpr hz)

theorem ofInt_ne_nil (z : ℤ) : ofInt z ≠ [] := by
  unfold ofInt
  split
  · exact List.cons_ne_nil _ _
  · exact ofNat_ne_nil _

theorem mem_ofInt {z : ℤ} {c : Char} (hc : c ∈ ofInt z) : c = '-' ∨ c.isDigit = true := by
  unfold ofInt at hc
  split at hc
  · cases List.mem_cons.mp hc with
    | inl hminus => exact Or.inl hminus
    | inr hdigit => exact Or.inr (isDigit_of_mem_ofNat hdigit)
  · exact Or.inr (isDigit_of_mem_ofNat hc)

theorem ofInt_injective : Function.Injective ofInt := by
  intro x y heq
  have hminus : ∀ m n : ℕ, '-' :: ofNat m ≠ ofNat n := by
    intro m n h
    have hdigit : '-'.isDigit = true :=
      isDigit_of_mem_ofNat (h ▸ List.mem_cons_self : '-' ∈ ofNat n)
    exact absurd hdigit (by decide)
  unfold ofInt at heq
  split at heq <;> split at heq
  · have habs := ofNat_injective (List.cons.inj heq).2
    omega
  · exact absurd heq (hminus _ _)
  · exact absurd heq.symm (hminus _ _)
  · have habs := ofNat_injective heq
    omega

theorem append_cons_inj {l₁ l₂ r₁ r₂ : List Char} {c : Char} (h₁ : c ∉ l₁) (h₂ : c ∉ l₂)
    (heq : l₁ ++ c :: r₁ = l₂ ++ c :: r₂) : l₁ = l₂ ∧ r₁ = r₂ := by
  induction l₁ generalizing l₂ with
  | nil =>
      cases l₂ with
      | nil => simpa using heq
      | cons d l₂ =>
          simp only [List.nil_append, List.cons_append, List.cons.injEq] at heq
          exact absurd (heq.1 ▸ List.mem_cons_self) h₂
  | cons d l₁ ih =>
      cases l₂ with
      | nil =>
          simp only [List.nil_append, List.cons_append, List.cons.injEq] at heq
          exact absurd (heq.1 ▸ List.mem_cons_self) h₁
      | cons e l₂ =>
          simp only [List.cons_append, List.cons.injEq] at heq
          obtain ⟨rfl, htail⟩ := heq
          obtain ⟨rfl, hrest⟩ := ih (fun h => h₁ (List.mem_cons_of_mem _ h))
            (fun h => h₂ (List.mem_cons_of_mem _ h)) htail
          exact ⟨rfl, hrest⟩

end Text
