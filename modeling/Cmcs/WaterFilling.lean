import Mathlib.Algebra.BigOperators.Ring.Finset
import Mathlib.Algebra.Order.BigOperators.Group.Finset
import Mathlib.Algebra.Order.Field.Basic
import Mathlib.Tactic

/-!
# Weighted water filling

Each participant has a guarantee, a weight and a demand.  At water level `θ` it
receives its guarantee and `θ` times its weight, up to its demand.  The
solution for a total is unique.  It can be found by capping participants in
rounds: whoever would exceed its demand at the tentative level is capped there
for good, because the tentative level only rises.
-/

namespace WaterFilling

variable {ι K : Type*} [Field K] [LinearOrder K]

section Solutions

variable (demand guarantee weight : ι → K)

/-- What participant `i` receives at water level `θ`. -/
def level (θ : K) (i : ι) : K := min (demand i) (guarantee i + weight i * θ)

structure Solution (s : Finset ι) (total : K) (B : ι → K) : Prop where
  exists_level : ∃ θ, 0 ≤ θ ∧ ∀ i ∈ s, B i = level demand guarantee weight θ i
  sum_eq : ∑ i ∈ s, B i = min total (∑ i ∈ s, demand i)

end Solutions

variable [IsStrictOrderedRing K] {demand guarantee weight : ι → K}
variable {s : Finset ι} {total θ θ' : K} {B B' : ι → K}

theorem level_mono {i : ι} (hw : 0 ≤ weight i) (hle : θ ≤ θ') :
    level demand guarantee weight θ i ≤ level demand guarantee weight θ' i := by
  unfold level
  gcongr

theorem level_nonneg {i : ι} (hd : 0 ≤ demand i) (hg : 0 ≤ guarantee i) (hw : 0 ≤ weight i)
    (hθ : 0 ≤ θ) : 0 ≤ level demand guarantee weight θ i :=
  le_min hd (add_nonneg hg (mul_nonneg hw hθ))

theorem Solution.unique (hw : ∀ i ∈ s, 0 ≤ weight i)
    (hB : Solution demand guarantee weight s total B)
    (hB' : Solution demand guarantee weight s total B') : ∀ i ∈ s, B i = B' i := by
  -- the solution with the lower level is pointwise at most the other
  have hordered : ∀ C C' : ι → K, ∀ θ θ', θ ≤ θ' →
      (∀ i ∈ s, C i = level demand guarantee weight θ i) →
      (∀ i ∈ s, C' i = level demand guarantee weight θ' i) →
      ∑ i ∈ s, C i = ∑ i ∈ s, C' i → ∀ i ∈ s, C i = C' i := by
    intro C C' θ θ' hle hC hC' hsum
    apply (Finset.sum_eq_sum_iff_of_le ?_).mp hsum
    intro i hi
    rw [hC i hi, hC' i hi]
    exact level_mono (hw i hi) hle
  obtain ⟨θ, -, hlevel⟩ := hB.exists_level
  obtain ⟨θ', -, hlevel'⟩ := hB'.exists_level
  have hsum : ∑ i ∈ s, B i = ∑ i ∈ s, B' i := by
    rw [hB.sum_eq, hB'.sum_eq]
  cases le_total θ θ' with
  | inl hle => exact hordered B B' θ θ' hle hlevel hlevel' hsum
  | inr hle =>
      intro i hi
      exact (hordered B' B θ' θ hle hlevel' hlevel hsum.symm i hi).symm

/-! ## Demands beyond the total -/

theorem min_sum_clamped (hd : ∀ i ∈ s, 0 ≤ demand i) (htotal : 0 ≤ total) :
    min total (∑ i ∈ s, min (demand i) total) = min total (∑ i ∈ s, demand i) := by
  by_cases hall : ∀ i ∈ s, demand i ≤ total
  · rw [Finset.sum_congr rfl fun i hi => min_eq_left (hall i hi)]
  · push Not at hall
    obtain ⟨j, hj, hlt⟩ := hall
    have hclamped : total ≤ ∑ i ∈ s, min (demand i) total := by
      calc
        total = min (demand j) total := (min_eq_right hlt.le).symm
        _ ≤ ∑ i ∈ s, min (demand i) total :=
          Finset.single_le_sum (f := fun i => min (demand i) total)
            (fun i hi => le_min (hd i hi) htotal) hj
    have hdemand : ∑ i ∈ s, min (demand i) total ≤ ∑ i ∈ s, demand i :=
      Finset.sum_le_sum fun i _ => min_le_left _ _
    rw [min_eq_left hclamped, min_eq_left (hclamped.trans hdemand)]

/-- If a participant receives the whole total, the others receive nothing. -/
theorem eq_zero_of_eq_total [DecidableEq ι] (hnonneg : ∀ i ∈ s, 0 ≤ B i)
    (hsum : ∑ i ∈ s, B i ≤ total) {j : ι} (hj : j ∈ s) (hall : B j = total) :
    ∀ i ∈ s, i ≠ j → B i = 0 := by
  have hrest := Finset.add_sum_erase s B hj
  have hzero : ∑ i ∈ s.erase j, B i = 0 := by
    have hle : 0 ≤ ∑ i ∈ s.erase j, B i :=
      Finset.sum_nonneg fun i hi => hnonneg i (Finset.mem_of_mem_erase hi)
    linarith
  intro i hi hij
  exact (Finset.sum_eq_zero_iff_of_nonneg
    fun i hi => hnonneg i (Finset.mem_of_mem_erase hi)).mp hzero i
      (Finset.mem_erase.mpr ⟨hij, hi⟩)

/-- Capping the demands at the total does not change the solution. -/
theorem Solution.of_clamped [DecidableEq ι] (hd : ∀ i ∈ s, 0 ≤ demand i)
    (hg : ∀ i ∈ s, 0 ≤ guarantee i) (hw : ∀ i ∈ s, 0 < weight i)
    (hguarantee : ∑ i ∈ s, guarantee i ≤ total)
    (hB : Solution (fun i => min (demand i) total) guarantee weight s total B) :
    Solution demand guarantee weight s total B := by
  have htotal : 0 ≤ total := (Finset.sum_nonneg hg).trans hguarantee
  have hbelow : ∀ i ∈ s, guarantee i ≤ total := fun i hi =>
    (Finset.single_le_sum hg hi).trans hguarantee
  refine ⟨?_, hB.sum_eq.trans (min_sum_clamped hd htotal)⟩
  obtain ⟨θ, hθ, hlevel⟩ := hB.exists_level
  by_cases hflat : ∀ i ∈ s, demand i ≤ total ∨ guarantee i + weight i * θ ≤ total
  · refine ⟨θ, hθ, fun i hi => ?_⟩
    rw [hlevel i hi]
    simp only [level]
    cases hflat i hi with
    | inl hle => rw [min_eq_left hle]
    | inr hle => rw [min_assoc, min_eq_right hle]
  · -- participant `j` receives everything, and the level can be lowered to it
    push Not at hflat
    obtain ⟨j, hj, hdemand, hover⟩ := hflat
    have hBj : B j = total := by
      rw [hlevel j hj]
      simp only [level, min_eq_right hdemand.le, min_eq_left hover.le]
    have hnonneg : ∀ i ∈ s, 0 ≤ B i := by
      intro i hi
      rw [hlevel i hi]
      exact level_nonneg (le_min (hd i hi) htotal) (hg i hi) (hw i hi).le hθ
    have hsum : ∑ i ∈ s, B i ≤ total := hB.sum_eq.trans_le (min_le_left _ _)
    have hothers := eq_zero_of_eq_total hnonneg hsum hj hBj
    have hwj := hw j hj
    have hθ' : 0 ≤ (total - guarantee j) / weight j :=
      div_nonneg (sub_nonneg.mpr (hbelow j hj)) hwj.le
    have hlower : (total - guarantee j) / weight j ≤ θ := by
      rw [div_le_iff₀ hwj]
      linarith
    refine ⟨(total - guarantee j) / weight j, hθ', fun i hi => ?_⟩
    by_cases hij : i = j
    · subst i
      rw [hBj, level, mul_div_cancel₀ _ hwj.ne', add_sub_cancel, min_eq_right hdemand.le]
    · rw [hothers i hi hij]
      apply le_antisymm (level_nonneg (hd i hi) (hg i hi) (hw i hi).le hθ')
      have hzero := hothers i hi hij
      rw [hlevel i hi, level] at hzero
      by_cases hdi : demand i = 0
      · exact (min_le_left _ _).trans hdi.le
      · have hgi : guarantee i + weight i * ((total - guarantee j) / weight j) ≤ 0 := by
          cases min_choice (min (demand i) total) (guarantee i + weight i * θ) with
          | inr hright =>
              rw [hright] at hzero
              have hmono := mul_le_mul_of_nonneg_left hlower (hw i hi).le
              linarith
          | inl hleft =>
              -- the total itself is zero
              rw [hleft] at hzero
              have htotal0 : total = 0 := by
                cases min_choice (demand i) total with
                | inl hmin => exact absurd (hmin ▸ hzero) hdi
                | inr hmin => exact hmin ▸ hzero
              have hgi := hbelow i hi
              have hgj := hbelow j hj
              have hgj0 : guarantee j = 0 := le_antisymm (htotal0 ▸ hgj) (hg j hj)
              rw [htotal0, hgj0, sub_zero, zero_div, mul_zero, add_zero]
              exact htotal0 ▸ hgi
        exact (min_le_right _ _).trans hgi

/-! ## Capping in rounds -/

section Rounds

variable (demand guarantee weight)

/-- The part of the guarantee which is demanded. -/
def base (i : ι) : K := min (demand i) (guarantee i)

/-- What is left of the total when the capped participants have their demand
and the free ones their base. -/
def residual (total : K) (capped free : Finset ι) : K :=
  total - ∑ i ∈ capped, demand i - ∑ i ∈ free, base demand guarantee i

/-- Level `θ` covers the demand of every capped participant, and there is room
to raise the free ones to it. -/
structure Filling (total : K) (capped free : Finset ι) (θ : K) : Prop where
  nonneg : 0 ≤ θ
  covered : ∀ i ∈ capped, demand i ≤ guarantee i + weight i * θ
  room : θ * ∑ i ∈ free, weight i ≤ residual demand guarantee total capped free

end Rounds

variable {capped free : Finset ι}

theorem filling_start (hguarantee : ∑ i ∈ s, guarantee i ≤ total) :
    Filling demand guarantee weight total ∅ s 0 where
  nonneg := le_rfl
  covered i hi := absurd hi (Finset.notMem_empty i)
  room := by
    have hbase : ∑ i ∈ s, base demand guarantee i ≤ ∑ i ∈ s, guarantee i :=
      Finset.sum_le_sum fun i _ => min_le_right _ _
    simp only [residual, zero_mul, Finset.sum_empty, sub_zero]
    linarith

theorem Filling.residual_nonneg (hfill : Filling demand guarantee weight total capped free θ)
    (hw : ∀ i ∈ free, 0 ≤ weight i) : 0 ≤ residual demand guarantee total capped free :=
  (mul_nonneg hfill.nonneg (Finset.sum_nonneg hw)).trans hfill.room

/-- The tentative level, which uses up the room, is not below the level so
far. -/
theorem Filling.raise (hfill : Filling demand guarantee weight total capped free θ)
    (hw : ∀ i ∈ capped, 0 ≤ weight i) (hsum : 0 < ∑ i ∈ free, weight i) :
    Filling demand guarantee weight total capped free
      (residual demand guarantee total capped free / ∑ i ∈ free, weight i) := by
  have hle : θ ≤ residual demand guarantee total capped free / ∑ i ∈ free, weight i :=
    (le_div_iff₀ hsum).mpr hfill.room
  constructor
  · exact hfill.nonneg.trans hle
  · intro i hi
    have hmono := mul_le_mul_of_nonneg_left hle (hw i hi)
    exact (hfill.covered i hi).trans (by linarith)
  · rw [div_mul_cancel₀ _ hsum.ne']

/-- Participants who reach their demand at a level which uses up the room are
capped; the level still has room. -/
theorem Filling.cap [DecidableEq ι] {full : Finset ι}
    (hfill : Filling demand guarantee weight total capped free θ)
    (hfull : full ⊆ free) (hdisjoint : Disjoint capped free)
    (hroom : θ * ∑ i ∈ free, weight i = residual demand guarantee total capped free)
    (hreach : ∀ i ∈ full, demand i ≤ base demand guarantee i + weight i * θ) :
    Filling demand guarantee weight total (capped ∪ full) (free \ full) θ := by
  constructor
  · exact hfill.nonneg
  · intro i hi
    cases Finset.mem_union.mp hi with
    | inl hcapped => exact hfill.covered i hcapped
    | inr hnew =>
        have hbase : base demand guarantee i ≤ guarantee i := min_le_right _ _
        exact (hreach i hnew).trans (by linarith)
  · have hunion := Finset.sum_union (hdisjoint.mono_right hfull) (f := demand)
    have hbase := Finset.sum_sdiff hfull (f := base demand guarantee)
    have hweight := Finset.sum_sdiff hfull (f := weight)
    have hused : ∑ i ∈ full, demand i ≤
        ∑ i ∈ full, base demand guarantee i + θ * ∑ i ∈ full, weight i := by
      calc
        ∑ i ∈ full, demand i ≤ ∑ i ∈ full, (base demand guarantee i + weight i * θ) :=
          Finset.sum_le_sum hreach
        _ = ∑ i ∈ full, base demand guarantee i + θ * ∑ i ∈ full, weight i := by
          rw [Finset.sum_add_distrib, ← Finset.sum_mul, mul_comm]
    unfold residual at hroom ⊢
    rw [hunion]
    rw [← hweight, mul_add] at hroom
    linarith

/-- Everybody has been capped. -/
theorem Filling.solution_of_capped
    (hfill : Filling demand guarantee weight total capped ∅ θ) :
    Solution demand guarantee weight capped total demand := by
  have hroom := hfill.room
  simp only [residual, Finset.sum_empty, mul_zero, sub_zero, sub_nonneg] at hroom
  refine ⟨⟨θ, hfill.nonneg, fun i hi => ?_⟩, (min_eq_right hroom).symm⟩
  exact (min_eq_left (hfill.covered i hi)).symm

/-- Nobody else reaches its demand at the level which uses up the room. -/
theorem Filling.solution_of_free [DecidableEq ι]
    (hfill : Filling demand guarantee weight total capped free θ)
    (hw : ∀ i ∈ free, 0 ≤ weight i) (hdisjoint : Disjoint capped free)
    (hroom : θ * ∑ i ∈ free, weight i = residual demand guarantee total capped free)
    (hbelow : ∀ i ∈ free, base demand guarantee i + weight i * θ < demand i)
    (hcapped : ∀ i ∈ capped, B i = demand i)
    (hfree : ∀ i ∈ free, B i = base demand guarantee i + weight i * θ) :
    Solution demand guarantee weight (capped ∪ free) total B := by
  have hbase : ∀ i ∈ free, base demand guarantee i = guarantee i := by
    intro i hi
    have hraised := mul_nonneg (hw i hi) hfill.nonneg
    cases min_choice (demand i) (guarantee i) with
    | inl hmin =>
        have hlt := hbelow i hi
        rw [base, hmin] at hlt
        linarith
    | inr hmin => exact hmin
  have hsumB : ∑ i ∈ capped ∪ free, B i = total := by
    rw [Finset.sum_union hdisjoint, Finset.sum_congr rfl hcapped, Finset.sum_congr rfl hfree,
      Finset.sum_add_distrib, ← Finset.sum_mul, mul_comm (∑ i ∈ free, weight i), hroom]
    unfold residual
    ring
  have hdemand : ∑ i ∈ capped ∪ free, B i ≤ ∑ i ∈ capped ∪ free, demand i := by
    apply Finset.sum_le_sum
    intro i hi
    cases Finset.mem_union.mp hi with
    | inl hmem => exact (hcapped i hmem).le
    | inr hmem =>
        rw [hfree i hmem]
        exact (hbelow i hmem).le
  constructor
  · refine ⟨θ, hfill.nonneg, fun i hi => ?_⟩
    cases Finset.mem_union.mp hi with
    | inl hmem =>
        rw [hcapped i hmem]
        exact (min_eq_left (hfill.covered i hmem)).symm
    | inr hmem =>
        have hlt := hbelow i hmem
        rw [hbase i hmem] at hlt
        rw [hfree i hmem, hbase i hmem]
        exact (min_eq_right hlt.le).symm
  · rw [hsumB] at hdemand ⊢
    exact (min_eq_left hdemand).symm

end WaterFilling
