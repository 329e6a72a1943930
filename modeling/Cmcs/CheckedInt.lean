import Mathlib.Tactic

/-!
# Checked machine integers

Signed integers of `w` bits in two's complement whose arithmetic is undefined on
overflow.  An expression is checked by checking each intermediate result, and a
loop of checked steps agrees with the exact loop exactly when every step of the
exact loop passes its check.
-/

namespace CheckedInt

variable {w : ℕ} {x y : ℤ}

def Fits (w : ℕ) (x : ℤ) : Prop := -2 ^ (w - 1) ≤ x ∧ x ≤ 2 ^ (w - 1) - 1

instance (w : ℕ) (x : ℤ) : Decidable (Fits w x) :=
  inferInstanceAs (Decidable (_ ∧ _))

theorem fits_32_iff : Fits 32 x ↔ -2 ^ 31 ≤ x ∧ x ≤ 2 ^ 31 - 1 := Iff.rfl

/-- The result `x` of an operation, where `none` is overflow. -/
def checked (w : ℕ) (x : ℤ) : Option ℤ := if Fits w x then some x else none

theorem checked_eq_some : checked w x = some y ↔ Fits w x ∧ x = y := by
  unfold checked
  split
  next hfits => simp [hfits]
  next hfits => simp [hfits]

theorem map_checked_eq_some {A : Type*} {f : ℤ → A} {a : A} :
    (checked w x).map f = some a ↔ a = f x ∧ Fits w x := by
  simp only [Option.map_eq_some_iff, checked_eq_some]
  constructor
  · intro h
    obtain ⟨_, ⟨hfits, rfl⟩, rfl⟩ := h
    exact ⟨rfl, hfits⟩
  · intro h
    obtain ⟨rfl, hfits⟩ := h
    exact ⟨x, ⟨hfits, rfl⟩, rfl⟩

theorem bind_checked_eq_some {A : Type*} {f : ℤ → Option A} {a : A} :
    (checked w x).bind f = some a ↔ f x = some a ∧ Fits w x := by
  simp only [Option.bind_eq_some_iff, checked_eq_some]
  constructor
  · intro h
    obtain ⟨_, ⟨hfits, rfl⟩, hf⟩ := h
    exact ⟨hf, hfits⟩
  · intro h
    exact ⟨x, ⟨h.2, rfl⟩, h.1⟩

/-- The conversion of an unsigned value, which wraps. -/
def ofUnsigned (w n : ℕ) : ℤ := (BitVec.ofNat w n).toInt

theorem ofUnsigned_eq {n : ℕ} (hw : 0 < w) (hn : Fits w n) : ofUnsigned w n = n := by
  have hpow : (2 : ℤ) ^ w = 2 * 2 ^ (w - 1) := by
    obtain ⟨w', rfl⟩ := Nat.exists_eq_succ_of_ne_zero hw.ne'
    rw [Nat.succ_sub_one, pow_succ]
    ring
  obtain ⟨-, hupper⟩ := hn
  rw [ofUnsigned, BitVec.toInt_ofNat', Int.bmod_eq_of_le]
  all_goals push_cast
  all_goals omega

/-- A loop of checked steps: `check s a` holds where the step from `s` with `a`
passes. -/
theorem foldlM_eq_some_iff {S A : Type*} {f : S → A → S} {g : S → A → Option S}
    {check : S → A → Prop} (hstep : ∀ s a s', g s a = some s' ↔ s' = f s a ∧ check s a)
    {as : List A} {s s' : S} :
    as.foldlM g s = some s' ↔
      s' = as.foldl f s ∧
        ∀ before a after, as = before ++ a :: after → check (before.foldl f s) a := by
  induction as generalizing s with
  | nil => simp [eq_comm]
  | cons a as ih =>
      rw [List.foldlM_cons, Option.bind_eq_bind, Option.bind_eq_some_iff]
      constructor
      · intro h
        obtain ⟨t, hfirst, hrest⟩ := h
        obtain ⟨rfl, hcheck⟩ := (hstep s a t).mp hfirst
        obtain ⟨hs', hchecks⟩ := ih.mp hrest
        refine ⟨hs', ?_⟩
        intro before b after hsplit
        cases before with
        | nil =>
            simp only [List.nil_append, List.cons.injEq] at hsplit
            rw [← hsplit.1]
            exact hcheck
        | cons b' before =>
            simp only [List.cons_append, List.cons.injEq] at hsplit
            rw [← hsplit.1]
            exact hchecks before b after hsplit.2
      · intro h
        obtain ⟨hs', hchecks⟩ := h
        refine ⟨f s a, (hstep s a _).mpr ⟨rfl, hchecks [] a as rfl⟩, ih.mpr ⟨hs', ?_⟩⟩
        intro before b after hsplit
        exact hchecks (a :: before) b after (by rw [hsplit, List.cons_append])

end CheckedInt
