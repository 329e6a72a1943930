import Mathlib.Data.Nat.ModEq
import Mathlib.Tactic

/-!
# Ones' complement checksums

A sum of digits in base `B` is folded by adding the carry back in until one digit is
left; the checksum is that digit's complement.  Folding keeps the sum modulo `B - 1`
and gives zero only for zero, so that digits verify exactly when their sum is a
positive multiple of `B - 1`.
-/

namespace OnesComplement

/-- Adds the carry back in until one digit is left. -/
def fold (B : ℕ) (hB : 1 < B) (s : ℕ) : ℕ :=
  if s < B then s else fold B hB (s % B + s / B)
termination_by s
decreasing_by
  rename_i hnot
  have hs : B ≤ s := not_lt.mp hnot
  have hmod := Nat.mod_add_div s B
  have hquot : 0 < s / B := Nat.div_pos hs (by omega)
  nlinarith

variable {B : ℕ} {hB : 1 < B} {s t : ℕ}

theorem fold_lt (hB : 1 < B) (s : ℕ) : fold B hB s < B := by
  fun_induction fold B hB s with
  | case1 s hs => exact hs
  | case2 s hs ih => exact ih

theorem fold_modEq (hB : 1 < B) (s : ℕ) : fold B hB s ≡ s [MOD B - 1] := by
  fun_induction fold B hB s with
  | case1 s hs => rfl
  | case2 s hs ih =>
      have hbase : B ≡ 1 [MOD B - 1] := by
        have hle : 1 ≤ B := hB.le
        exact ((Nat.modEq_iff_dvd' hle).mpr (dvd_refl _)).symm
      calc fold B hB (s % B + s / B) ≡ s % B + s / B [MOD B - 1] := ih
        _ ≡ s % B + B * (s / B) [MOD B - 1] := by
            refine Nat.ModEq.add_left _ ?_
            simpa using (hbase.symm.mul_right (s / B))
        _ = s := Nat.mod_add_div s B

theorem fold_eq_zero (hB : 1 < B) (s : ℕ) : fold B hB s = 0 ↔ s = 0 := by
  fun_induction fold B hB s with
  | case1 s hs => rfl
  | case2 s hs ih =>
      have hquot : 0 < s / B := Nat.div_pos (not_lt.mp hs) (by omega)
      rw [ih]
      constructor
      · intro hzero
        omega
      · rintro rfl
        omega

/-- What verifies is a positive multiple of `B - 1`. -/
theorem fold_eq_pred (hB : 1 < B) (s : ℕ) : fold B hB s = B - 1 ↔ 0 < s ∧ B - 1 ∣ s := by
  have hmod := fold_modEq hB s
  have hlt := fold_lt hB s
  constructor
  · intro hfold
    refine ⟨?_, ?_⟩
    · rw [Nat.pos_iff_ne_zero]
      intro hzero
      have hnone := (fold_eq_zero hB s).mpr hzero
      omega
    · rw [hfold] at hmod
      exact (Nat.modEq_zero_iff_dvd.mp (hmod.symm.trans (Nat.modEq_zero_iff_dvd.mpr (dvd_refl _))))
  · rintro ⟨hpos, hdvd⟩
    have hne : fold B hB s ≠ 0 := fun hzero => hpos.ne' ((fold_eq_zero hB s).mp hzero)
    have hdvd' : B - 1 ∣ fold B hB s :=
      Nat.modEq_zero_iff_dvd.mp (hmod.trans (Nat.modEq_zero_iff_dvd.mpr hdvd))
    exact le_antisymm (by omega) (Nat.le_of_dvd (Nat.pos_of_ne_zero hne) hdvd')

/-- The complement of the folded sum. -/
def checksum (B : ℕ) (hB : 1 < B) (words : List ℕ) : ℕ := B - 1 - fold B hB words.sum

/-- A receiver's test of words which include their checksum. -/
def Verifies (B : ℕ) (hB : 1 < B) (words : List ℕ) : Prop := fold B hB words.sum = B - 1

instance (words : List ℕ) : Decidable (Verifies B hB words) :=
  inferInstanceAs (Decidable (fold B hB words.sum = B - 1))

theorem checksum_lt (words : List ℕ) : checksum B hB words < B := by
  unfold checksum
  omega

/-- Words verify with their checksum in between, wherever it stands. -/
theorem verifies_checksum (before after : List ℕ) :
    Verifies B hB (before ++ checksum B hB (before ++ after) :: after) := by
  have hlt := fold_lt hB (before ++ after).sum
  have hmod := fold_modEq hB (before ++ after).sum
  have hsum : (before ++ checksum B hB (before ++ after) :: after).sum =
      (before ++ after).sum + (B - 1 - fold B hB (before ++ after).sum) := by
    rw [checksum, List.sum_append, List.sum_cons, List.sum_append]
    ring
  unfold Verifies
  rw [fold_eq_pred, hsum]
  constructor
  · by_contra hnot
    have hzero : (before ++ after).sum = 0 := by omega
    have hfold := (fold_eq_zero hB _).mpr hzero
    omega
  · have hcongr : (before ++ after).sum + (B - 1 - fold B hB (before ++ after).sum) ≡
        fold B hB (before ++ after).sum + (B - 1 - fold B hB (before ++ after).sum)
          [MOD B - 1] := hmod.symm.add_right _
    have hrest : fold B hB (before ++ after).sum +
        (B - 1 - fold B hB (before ++ after).sum) = B - 1 := by omega
    rw [hrest] at hcongr
    exact Nat.modEq_zero_iff_dvd.mp (hcongr.trans (Nat.modEq_zero_iff_dvd.mpr (dvd_refl _)))

/-- More words keep the verification exactly if they add up to zero. -/
theorem verifies_append {words : List ℕ} (hwords : Verifies B hB words) (more : List ℕ) :
    Verifies B hB (words ++ more) ↔ B - 1 ∣ more.sum := by
  unfold Verifies at hwords ⊢
  obtain ⟨hpos, hdvd⟩ := (fold_eq_pred hB _).mp hwords
  rw [fold_eq_pred, List.sum_append, Nat.dvd_add_right hdvd]
  exact and_iff_right (Nat.add_pos_left hpos _)

end OnesComplement
