import Cmcs.WaterFilling
import Mathlib.Algebra.Order.Field.Rat
import Mathlib.Data.List.Dedup
import Mathlib.Data.List.Perm.Basic
import Mathlib.Tactic

/-!
# The ideal allocation of the evaluation

`_compute_ideal` of `analyze_results.py`, in exact rationals.  A dictionary is
the list of its items in the order of insertion and a set a list without
duplicates.  The loop caps VNs in rounds; it computes the water-filling solution
for the link capacity, and the order of the ids does not matter because that
solution is unique.
-/

namespace Cmcs

/-- What the allocation reads of an entry of `VNS`. -/
structure VN where
  gbw : ℚ
  weight : ℚ

def totalBwC : ℚ := 10

namespace IdealAllocation

variable (vns : ℕ → VN) (demands : ℕ → Option ℚ)

/-- `demands.get(vnid, TOTAL_BW_C)` -/
def demand (vnid : ℕ) : ℚ := (demands vnid).getD totalBwC

def effDemand (vnid : ℕ) : ℚ := min (demand demands vnid) totalBwC

def base (i : ℕ) : ℚ := min (effDemand demands i) (vns i).gbw

def residual (fixed : List (ℕ × ℚ)) (nonFixed : List ℕ) : ℚ :=
  max (totalBwC - (fixed.map Prod.snd).sum - (nonFixed.map (base vns demands)).sum) 0

def totalW (nonFixed : List ℕ) : ℚ := (nonFixed.map fun i => (vns i).weight).sum

def tentative (residual totalW : ℚ) (i : ℕ) : ℚ :=
  base vns demands i +
    if 0 < totalW then residual * (vns i).weight / totalW else 0

/-- The `while True` loop, for at most `fuel` rounds. -/
def loop (active : List ℕ) : ℕ → List (ℕ × ℚ) → Option (List (ℕ × ℚ))
  | 0, _ => none
  | fuel + 1, fixed =>
      let nonFixed := active.filter fun i => i ∉ fixed.map Prod.fst
      if nonFixed = [] then some fixed
      else
        let allocation := tentative vns demands (residual vns demands fixed nonFixed)
          (totalW vns nonFixed)
        let newlyFixed := nonFixed.filter fun i => effDemand demands i ≤ allocation i
        if newlyFixed = [] then
          some (fixed ++ nonFixed.map fun i => (i, allocation i))
        else
          loop active fuel (fixed ++ newlyFixed.map fun i => (i, effDemand demands i))

end IdealAllocation

open IdealAllocation in
/-- `_compute_ideal`; `demands=None` is the empty dictionary. -/
def computeIdeal (vns : ℕ → VN) (activeVnIds : List ℕ) (demands : ℕ → Option ℚ) :
    Option (List (ℕ × ℚ)) :=
  if activeVnIds = [] then some []
  else loop vns demands activeVnIds.dedup (activeVnIds.length + 1) []

namespace IdealAllocation

open WaterFilling

variable {vns : ℕ → VN} {demands : ℕ → Option ℚ} {active : List ℕ}

/-! ## Rounds of the loop as rounds of the water filling -/

/-- The dictionary in which the VNs `capped` have their demand. -/
def cappedItems (demands : ℕ → Option ℚ) (capped : List ℕ) : List (ℕ × ℚ) :=
  capped.map fun i => (i, effDemand demands i)

def uncapped (active capped : List ℕ) : List ℕ := active.filter fun i => i ∉ capped

theorem keys_cappedItems (capped : List ℕ) :
    (cappedItems demands capped).map Prod.fst = capped := by
  simp [cappedItems, Function.comp_def]

/-- The state at the head of the loop: the capped VNs are covered and the rest
has room. -/
structure Round (vns : ℕ → VN) (demands : ℕ → Option ℚ) (active capped : List ℕ) : Prop where
  nodup : capped.Nodup
  subset : capped ⊆ active
  filling : ∃ θ, Filling (effDemand demands) (fun i => (vns i).gbw) (fun i => (vns i).weight)
    totalBwC capped.toFinset (uncapped active capped).toFinset θ

/-- What the loop returns. -/
structure Allocated (vns : ℕ → VN) (demands : ℕ → Option ℚ) (active : List ℕ)
    (B : List (ℕ × ℚ)) : Prop where
  solution : ∃ (keys : List ℕ) (f : ℕ → ℚ), B = keys.map (fun i => (i, f i)) ∧
    keys.Perm active ∧ Solution (effDemand demands) (fun i => (vns i).gbw)
      (fun i => (vns i).weight) active.toFinset totalBwC f

theorem residual_eq {capped : List ℕ} (hactive : active.Nodup) (hcapped : capped.Nodup)
    (hnonneg : 0 ≤ WaterFilling.residual (effDemand demands) (fun i => (vns i).gbw) totalBwC
      capped.toFinset (uncapped active capped).toFinset) :
    residual vns demands (cappedItems demands capped) (uncapped active capped) =
      WaterFilling.residual (effDemand demands) (fun i => (vns i).gbw) totalBwC
        capped.toFinset (uncapped active capped).toFinset := by
  have hfixed : ((cappedItems demands capped).map Prod.snd).sum =
      ∑ i ∈ capped.toFinset, effDemand demands i := by
    rw [List.sum_toFinset _ hcapped]
    simp [cappedItems, Function.comp_def]
  have hbase : ((uncapped active capped).map (base vns demands)).sum =
      ∑ i ∈ (uncapped active capped).toFinset,
        WaterFilling.base (effDemand demands) (fun i => (vns i).gbw) i :=
    (List.sum_toFinset _ (hactive.filter _)).symm
  rw [residual, hfixed, hbase]
  exact max_eq_left hnonneg

theorem tentative_eq {r W : ℚ} (hW : 0 < W) (i : ℕ) :
    tentative vns demands r W i =
      WaterFilling.base (effDemand demands) (fun i => (vns i).gbw) i +
        (vns i).weight * (r / W) := by
  rw [tentative, if_pos hW, mul_comm r, mul_div_assoc]
  rfl

theorem totalW_pos {free : List ℕ} (hw : ∀ i ∈ free, 0 < (vns i).weight) (hne : free ≠ []) :
    0 < totalW vns free := by
  apply List.sum_pos
  · intro x hx
    obtain ⟨i, hi, rfl⟩ := List.mem_map.mp hx
    exact hw i hi
  · simpa using hne

theorem disjoint_uncapped (active capped : List ℕ) :
    Disjoint capped.toFinset (uncapped active capped).toFinset := by
  rw [Finset.disjoint_left]
  intro i hi hfree
  have hnot := (List.mem_filter.mp (List.mem_toFinset.mp hfree)).2
  exact (decide_eq_true_iff.mp hnot) (List.mem_toFinset.mp hi)

theorem perm_capped_uncapped {capped : List ℕ} (hactive : active.Nodup)
    (hcapped : capped.Nodup) (hsubset : capped ⊆ active) :
    (capped ++ uncapped active capped).Perm active := by
  refine (List.perm_ext_iff_of_nodup ?_ hactive).mpr fun i => ?_
  · refine List.nodup_append.mpr ⟨hcapped, hactive.filter _, ?_⟩
    intro i hi j hj heq
    subst j
    exact (decide_eq_true_iff.mp (List.mem_filter.mp hj).2) hi
  · rw [List.mem_append, uncapped, List.mem_filter, decide_eq_true_iff]
    constructor
    · intro hmem
      cases hmem with
      | inl hi => exact hsubset hi
      | inr hi => exact hi.1
    · intro hi
      by_cases hin : i ∈ capped
      · exact Or.inl hin
      · exact Or.inr ⟨hi, hin⟩

theorem uncapped_append (active capped full : List ℕ) :
    uncapped active (capped ++ full) =
      (uncapped active capped).filter fun i => i ∉ full := by
  unfold uncapped
  rw [List.filter_filter]
  apply List.filter_congr
  intro i _
  simp [Bool.and_comm]

/-- One round which caps the VNs `full`. -/
theorem Round.cap {capped full : List ℕ} {θ : ℚ} (hactive : active.Nodup)
    (hround : Round vns demands active capped) (hfull : full.Sublist (uncapped active capped))
    (hfilling : Filling (effDemand demands) (fun i => (vns i).gbw) (fun i => (vns i).weight)
      totalBwC capped.toFinset (uncapped active capped).toFinset θ)
    (hroom : θ * ∑ i ∈ (uncapped active capped).toFinset, (vns i).weight =
      WaterFilling.residual (effDemand demands) (fun i => (vns i).gbw) totalBwC
        capped.toFinset (uncapped active capped).toFinset)
    (hreach : ∀ i ∈ full, effDemand demands i ≤
      WaterFilling.base (effDemand demands) (fun i => (vns i).gbw) i + (vns i).weight * θ) :
    Round vns demands active (capped ++ full) where
  nodup := by
    refine List.nodup_append.mpr ⟨hround.nodup, hfull.nodup (hactive.filter _), ?_⟩
    intro i hi j hj heq
    subst j
    exact (decide_eq_true_iff.mp (List.mem_filter.mp (hfull.subset hj)).2) hi
  subset := by
    intro i hi
    cases List.mem_append.mp hi with
    | inl hcapped => exact hround.subset hcapped
    | inr hnew => exact (List.mem_filter.mp (hfull.subset hnew)).1
  filling := by
    refine ⟨θ, ?_⟩
    have hcap := hfilling.cap (fun i hi => List.mem_toFinset.mpr
      (hfull.subset (List.mem_toFinset.mp hi))) (disjoint_uncapped active capped) hroom
      fun i hi => hreach i (List.mem_toFinset.mp hi)
    have hfree : (uncapped active (capped ++ full)).toFinset =
        (uncapped active capped).toFinset \ full.toFinset := by
      rw [uncapped_append]
      ext i
      simp
    rw [List.toFinset_append, hfree]
    exact hcap

/-- The last round, in which no further VN reaches its demand. -/
theorem allocated_of_free {capped : List ℕ} {θ : ℚ} {allocation : ℕ → ℚ}
    (hactive : active.Nodup) (hw : ∀ i ∈ active, 0 < (vns i).weight)
    (hround : Round vns demands active capped)
    (hfilling : Filling (effDemand demands) (fun i => (vns i).gbw) (fun i => (vns i).weight)
      totalBwC capped.toFinset (uncapped active capped).toFinset θ)
    (hroom : θ * ∑ i ∈ (uncapped active capped).toFinset, (vns i).weight =
      WaterFilling.residual (effDemand demands) (fun i => (vns i).gbw) totalBwC
        capped.toFinset (uncapped active capped).toFinset)
    (hallocation : ∀ i, allocation i =
      WaterFilling.base (effDemand demands) (fun i => (vns i).gbw) i + (vns i).weight * θ)
    (hbelow : ∀ i ∈ uncapped active capped, allocation i < effDemand demands i) :
    Allocated vns demands active
      (cappedItems demands capped ++
        (uncapped active capped).map fun i => (i, allocation i)) := by
  have hperm := perm_capped_uncapped hactive hround.nodup hround.subset
  have hdisjoint := disjoint_uncapped active capped
  have hunion : capped.toFinset ∪ (uncapped active capped).toFinset = active.toFinset := by
    rw [← List.toFinset_append]
    exact List.toFinset_eq_of_perm _ _ hperm
  have hnot : ∀ i ∈ uncapped active capped, i ∉ capped := fun i hi =>
    decide_eq_true_iff.mp (List.mem_filter.mp hi).2
  let f : ℕ → ℚ := fun i => if i ∈ capped then effDemand demands i else allocation i
  refine ⟨capped ++ uncapped active capped, f, ?_, hperm, ?_⟩
  · rw [List.map_append, cappedItems]
    congr 1
    · exact List.map_congr_left fun i hi => by simp [f, hi]
    · exact List.map_congr_left fun i hi => by simp [f, hnot i hi]
  · rw [← hunion]
    apply hfilling.solution_of_free _ hdisjoint hroom
    · intro i hi
      rw [← hallocation]
      exact hbelow i (List.mem_toFinset.mp hi)
    · intro i hi
      exact if_pos (List.mem_toFinset.mp hi)
    · intro i hi
      rw [← hallocation]
      exact if_neg (hnot i (List.mem_toFinset.mp hi))
    · intro i hi
      exact (hw i (List.mem_filter.mp (List.mem_toFinset.mp hi)).1).le

/-- The tentative allocations of a round. -/
def allocation (vns : ℕ → VN) (demands : ℕ → Option ℚ) (active capped : List ℕ) (i : ℕ) : ℚ :=
  tentative vns demands
    (residual vns demands (cappedItems demands capped) (uncapped active capped))
    (totalW vns (uncapped active capped)) i

def newlyCapped (vns : ℕ → VN) (demands : ℕ → Option ℚ) (active capped : List ℕ) : List ℕ :=
  (uncapped active capped).filter fun i =>
    effDemand demands i ≤ allocation vns demands active capped i

theorem loop_succ (fuel : ℕ) (capped : List ℕ) :
    loop vns demands active (fuel + 1) (cappedItems demands capped) =
      if uncapped active capped = [] then some (cappedItems demands capped)
      else if newlyCapped vns demands active capped = [] then
        some (cappedItems demands capped ++
          (uncapped active capped).map fun i => (i, allocation vns demands active capped i))
      else
        loop vns demands active fuel
          (cappedItems demands (capped ++ newlyCapped vns demands active capped)) := by
  rw [loop, keys_cappedItems, cappedItems, cappedItems, List.map_append]
  rfl

/-- The loop returns, and it returns the water-filling solution. -/
theorem loop_allocated (hactive : active.Nodup) (hw : ∀ i ∈ active, 0 < (vns i).weight)
    {fuel : ℕ} {capped : List ℕ} (hround : Round vns demands active capped)
    (hfuel : (uncapped active capped).length < fuel) :
    ∃ B, loop vns demands active fuel (cappedItems demands capped) = some B ∧
      Allocated vns demands active B := by
  induction fuel generalizing capped with
  | zero => omega
  | succ fuel ih =>
      obtain ⟨θ, hfilling⟩ := hround.filling
      have hwfree : ∀ i ∈ uncapped active capped, 0 < (vns i).weight := fun i hi =>
        hw i (List.mem_filter.mp hi).1
      rw [loop_succ]
      split
      next hnone =>
        have hperm := perm_capped_uncapped hactive hround.nodup hround.subset
        rw [hnone, List.append_nil] at hperm
        refine ⟨_, rfl, ⟨capped, effDemand demands, rfl, hperm, ?_⟩⟩
        rw [hnone, List.toFinset_nil] at hfilling
        rw [← List.toFinset_eq_of_perm _ _ hperm]
        exact hfilling.solution_of_capped
      next hsome =>
        have hW := totalW_pos hwfree hsome
        have hsumW : ∑ i ∈ (uncapped active capped).toFinset, (vns i).weight =
            totalW vns (uncapped active capped) :=
          List.sum_toFinset _ (hactive.filter _)
        have hraised := hfilling.raise
          (fun i hi => (hw i (hround.subset (List.mem_toFinset.mp hi))).le) (hsumW ▸ hW)
        have hroom := div_mul_cancel₀ (WaterFilling.residual (effDemand demands)
          (fun i => (vns i).gbw) totalBwC capped.toFinset
          (uncapped active capped).toFinset) (hsumW ▸ hW).ne'
        have hallocation : ∀ i, allocation vns demands active capped i =
            WaterFilling.base (effDemand demands) (fun i => (vns i).gbw) i + (vns i).weight *
              (WaterFilling.residual (effDemand demands) (fun i => (vns i).gbw) totalBwC
                capped.toFinset (uncapped active capped).toFinset /
                  ∑ i ∈ (uncapped active capped).toFinset, (vns i).weight) := by
          intro i
          rw [allocation, tentative_eq hW, hsumW,
            residual_eq hactive hround.nodup (hfilling.residual_nonneg
              fun i hi => (hwfree i (List.mem_toFinset.mp hi)).le)]
        split
        next hnew =>
          refine ⟨_, rfl, allocated_of_free hactive hw hround hraised hroom hallocation ?_⟩
          intro i hi
          have hnot := List.filter_eq_nil_iff.mp hnew i hi
          exact not_le.mp (by simpa using hnot)
        next hnew =>
          apply ih
          · apply hround.cap hactive List.filter_sublist hraised hroom
            intro i hi
            rw [← hallocation]
            exact decide_eq_true_iff.mp (List.mem_filter.mp hi).2
          · obtain ⟨i, hi⟩ := List.exists_mem_of_ne_nil _ hnew
            have hlt : (uncapped active
                (capped ++ newlyCapped vns demands active capped)).length <
                  (uncapped active capped).length := by
              rw [uncapped_append]
              exact List.length_filter_lt_length_iff_exists.mpr
                ⟨i, (List.mem_filter.mp hi).1, by simpa using hi⟩
            omega

theorem round_start (hactive : active.Nodup)
    (hguarantee : (active.map fun i => (vns i).gbw).sum ≤ totalBwC) :
    Round vns demands active [] where
  nodup := List.nodup_nil
  subset := List.nil_subset active
  filling := by
    refine ⟨0, ?_⟩
    have hall : uncapped active [] = active := List.filter_eq_self.mpr (by simp)
    rw [hall]
    apply filling_start
    rwa [List.sum_toFinset _ hactive]

/-! ## The result -/

/-- The arguments which the contract allows: every id has a guarantee, a weight
and a demand of the right sign, and the link covers the guarantees. -/
structure Contract (vns : ℕ → VN) (ids : List ℕ) (demands : ℕ → Option ℚ) : Prop where
  gbw_nonneg : ∀ i ∈ ids, 0 ≤ (vns i).gbw
  gbw_sum : (ids.dedup.map fun i => (vns i).gbw).sum ≤ totalBwC
  weight_pos : ∀ i ∈ ids, 0 < (vns i).weight
  demand_nonneg : ∀ i ∈ ids, 0 ≤ demand demands i

theorem computeIdeal_allocated {ids : List ℕ} (hcontract : Contract vns ids demands) :
    ∃ B, computeIdeal vns ids demands = some B ∧ Allocated vns demands ids.dedup B := by
  have hround : Round vns demands ids.dedup [] :=
    round_start ids.nodup_dedup hcontract.gbw_sum
  unfold computeIdeal
  split
  next hnil =>
    subst ids
    obtain ⟨θ, hfilling⟩ := hround.filling
    exact ⟨[], rfl, ⟨[], effDemand demands, rfl, List.Perm.refl _, hfilling.solution_of_capped⟩⟩
  next =>
    apply loop_allocated ids.nodup_dedup
      (fun i hi => hcontract.weight_pos i (List.mem_dedup.mp hi)) hround
    have hfilter := List.length_filter_le (fun i => i ∉ ([] : List ℕ)) ids.dedup
    have hdedup := ids.dedup_sublist.length_le
    unfold uncapped
    omega

/-- `_compute_ideal` returns an entry for each id; the entries are the
water-filling solution for the demands, and any list of the same ids gets the
same dictionary. -/
theorem compute_ideal_water_filling (vns : ℕ → VN) (ids : List ℕ) (demands : ℕ → Option ℚ)
    (hcontract : Contract vns ids demands) :
    ∃ B, computeIdeal vns ids demands = some B ∧
      (B.map Prod.fst).Perm ids.dedup ∧
      (∃ θ, 0 ≤ θ ∧ ∀ i b, (i, b) ∈ B →
        b = min (demand demands i) ((vns i).gbw + (vns i).weight * θ)) ∧
      (B.map Prod.snd).sum = min totalBwC (ids.dedup.map (demand demands)).sum ∧
      ∀ ids' : List ℕ, (∀ i, i ∈ ids' ↔ i ∈ ids) →
        ∃ B', computeIdeal vns ids' demands = some B' ∧ B'.Perm B := by
  obtain ⟨B, hB, ⟨keys, f, rfl, hkeys, hsolution⟩⟩ := computeIdeal_allocated hcontract
  have hmem : ∀ i ∈ ids.dedup.toFinset, i ∈ ids := fun i hi =>
    List.mem_dedup.mp (List.mem_toFinset.mp hi)
  have hdemands := hsolution.of_clamped
    (fun i hi => hcontract.demand_nonneg i (hmem i hi))
    (fun i hi => hcontract.gbw_nonneg i (hmem i hi))
    (fun i hi => hcontract.weight_pos i (hmem i hi))
    (by rw [List.sum_toFinset _ ids.nodup_dedup]; exact hcontract.gbw_sum)
  refine ⟨_, hB, ?_, ?_, ?_, ?_⟩
  · simpa [Function.comp_def] using hkeys
  · obtain ⟨θ, hθ, hlevel⟩ := hdemands.exists_level
    refine ⟨θ, hθ, fun i b hb => ?_⟩
    obtain ⟨j, hj, heq⟩ := List.mem_map.mp hb
    simp only [Prod.mk.injEq] at heq
    obtain ⟨rfl, rfl⟩ := heq
    exact hlevel j (List.mem_toFinset.mpr (hkeys.subset hj))
  · have hsum := hdemands.sum_eq
    rw [List.sum_toFinset _ ids.nodup_dedup, List.sum_toFinset _ ids.nodup_dedup] at hsum
    rw [← hsum, List.map_map]
    exact (hkeys.map f).sum_eq
  · intro ids' hsame
    have hperm : ids'.dedup.Perm ids.dedup :=
      (List.perm_ext_iff_of_nodup ids'.nodup_dedup ids.nodup_dedup).mpr fun i => by
        rw [List.mem_dedup, List.mem_dedup, hsame]
    have hcontract' : Contract vns ids' demands :=
      { gbw_nonneg := fun i hi => hcontract.gbw_nonneg i ((hsame i).mp hi)
        gbw_sum := (hperm.map _).sum_eq.trans_le hcontract.gbw_sum
        weight_pos := fun i hi => hcontract.weight_pos i ((hsame i).mp hi)
        demand_nonneg := fun i hi => hcontract.demand_nonneg i ((hsame i).mp hi) }
    obtain ⟨B', hB', ⟨keys', f', rfl, hkeys', hsolution'⟩⟩ := computeIdeal_allocated hcontract'
    rw [List.toFinset_eq_of_perm _ _ hperm] at hsolution'
    have hunique := hsolution'.unique
      (fun i hi => (hcontract.weight_pos i (hmem i hi)).le) hsolution
    refine ⟨_, hB', ?_⟩
    have hvalues : keys'.map (fun i => (i, f' i)) = keys'.map fun i => (i, f i) := by
      apply List.map_congr_left
      intro i hi
      rw [hunique i (List.mem_toFinset.mpr ((hkeys'.trans hperm).subset hi))]
    rw [hvalues]
    exact ((hkeys'.trans hperm).trans hkeys.symm).map _

/-- Three VNs with guarantees 1, 2 and 3 and weights 1, 2 and 1, of which the
first demands half of its guarantee. -/
theorem compute_ideal_water_filling_three :
    ∃ B, computeIdeal (fun i => ⟨i + 1, if i = 1 then 2 else 1⟩) [2, 0, 1]
        (fun i => if i = 0 then some (1 / 2) else none) = some B ∧
      (B.map Prod.snd).sum = min totalBwC
        (([2, 0, 1] : List ℕ).dedup.map
          (demand fun i => if i = 0 then some (1 / 2) else none)).sum := by
  have hcontract : Contract (fun i => ⟨i + 1, if i = 1 then 2 else 1⟩) [2, 0, 1]
      (fun i => if i = 0 then some (1 / 2) else none) := by
    constructor
    · decide +kernel
    · decide +kernel
    · decide +kernel
    · decide +kernel
  obtain ⟨B, hB, -, -, hsum, -⟩ := compute_ideal_water_filling _ _ _ hcontract
  exact ⟨B, hB, hsum⟩

example : computeIdeal (fun i => ⟨i + 1, if i = 1 then 2 else 1⟩) [2, 0, 1]
    (fun i => if i = 0 then some (1 / 2) else none) =
      some [(0, 1 / 2), (2, 9 / 2), (1, 5)] := by
  decide +kernel

end IdealAllocation

end Cmcs
