import Cmcs.SelectVn
import Mathlib.Order.Bounds.Basic
import Mathlib.Tactic

/-!
# Specification of `select_vn` in closed form

Which VN a call picks and from which cursor, and how many replenishment rounds
Phase 2 runs: the least number which lifts some non-empty member above zero.
The credits, the deficits and the cursors are arbitrary.
-/

namespace Cmcs
namespace LogicalQueueInfo

variable {P : Type} {k : ℕ} (lq : LogicalQueueInfo k)

/-- A non-empty VN with credit: Phase 1 may pick it. -/
def Creditable (i : Fin k) : Prop :=
  (lq.vnQueues i).size ≠ 0 ∧ 0 < (lq.vnQueues i).greenCredit

/-- A non-empty VN whose deficit is positive after `r` more rounds: Phase 2 may
pick it then. -/
def LiftedBy (r : ℕ) (i : Fin k) : Prop :=
  (lq.vnQueues i).size ≠ 0 ∧
    0 < (lq.vnQueues i).weightedDeficit + r * (lq.vnQueues i).weight * quantum

theorem hasDeficit_replenished {r : ℕ} {i : Fin k} (hi : i ∈ lq.activeSet) :
    (lq.replenished r).hasDeficit i = true ↔ lq.LiftedBy r i := by
  have hcomm : (lq.vnQueues i).weight * quantum * (r : ℤ) =
      r * (lq.vnQueues i).weight * quantum := by ring
  rw [hasDeficit_iff]
  simp only [replenished, roundsFor, hi, if_true, LiftedBy, hcomm]

/-- A Phase-1 call: the first creditable member from `green_scan_idx` pays for
its head packet out of its credit. -/
structure GreenPick (phys : Fin k → List (QE P)) (sel : Selection P k)
    (lq' : LogicalQueueInfo k) (idx : ℕ) : Prop where
  phase : sel.phase = .green
  first : CyclicScan.First lq.activeSet lq.greenScanIdx lq.Creditable idx sel.vn
  head : (phys sel.vn).head? = some sel.head
  result : lq' =
    { lq with
      vnQueues := fun i => { lq.vnQueues i with
        greenCredit := (lq.vnQueues i).greenCredit -
          if i = sel.vn then (sel.head.pktSize : ℤ) else 0 }
      greenScanIdx := idx + 1 }

/-- A Phase-2 call: every member receives `R` times its weight times the
quantum, for the least sufficient `R`, and the first lifted member from
`wrr_idx` pays for its head packet out of its deficit. -/
structure DwrrPick (phys : Fin k → List (QE P)) (sel : Selection P k)
    (lq' : LogicalQueueInfo k) (idx : ℕ) : Prop where
  phase : sel.phase = .dwrr
  uncredited : ∀ i ∈ lq.activeSet, ¬lq.Creditable i
  least : IsLeast { r : ℕ | ∃ i ∈ lq.activeSet, lq.LiftedBy r i } sel.rounds
  first : CyclicScan.First lq.activeSet lq.wrrIdx (lq.LiftedBy sel.rounds) idx sel.vn
  head : (phys sel.vn).head? = some sel.head
  result : lq' =
    { lq with
      vnQueues := fun i => { lq.vnQueues i with
        weightedDeficit := (lq.vnQueues i).weightedDeficit +
          (if i ∈ lq.activeSet then sel.rounds * (lq.vnQueues i).weight * quantum else 0) -
          if i = sel.vn then (sel.head.pktSize : ℤ) else 0 }
      wrrIdx := idx + 1 }

variable {lq} {phys : Fin k → List (QE P)} {sel : Selection P k} {lq' : LogicalQueueInfo k}

theorem first_of_find? {cursor idx : ℕ} {i : Fin k} {test : Fin k → Bool} {q : Fin k → Prop}
    (htest : ∀ j ∈ lq.activeSet, test j = true ↔ q j)
    (hfind : CyclicScan.find? lq.activeSet cursor test = some (idx, i)) :
    CyclicScan.First lq.activeSet cursor q idx i := by
  obtain ⟨cnt, hcnt, hidx, hget, hp, hbefore⟩ := CyclicScan.find?_first hfind
  refine ⟨cnt, hcnt, hidx, hget, (htest i (List.mem_of_getElem? hget)).mp hp, ?_⟩
  intro passed hpassed b hb hq
  exact hbefore passed hpassed b hb ((htest b (List.mem_of_getElem? hb)).mpr hq)

private theorem greenPick_of_find? {idx : ℕ} {i : Fin k} {head : QE P}
    (hfind : CyclicScan.find? lq.activeSet lq.greenScanIdx lq.hasGreenCredit =
      some (idx, i))
    (hhead : (phys i).head? = some head) :
    lq.GreenPick phys ⟨i, .green, 0, lq.activeSet, head⟩
      (lq.chargeGreen idx i head.pktSize) idx where
  phase := rfl
  first := first_of_find? (fun _ _ => lq.hasGreenCredit_iff) hfind
  head := hhead
  result := by
    simp only [chargeGreen, modifyVn, mk.injEq, and_true]
    funext j
    by_cases hj : j = i
    · subst j
      simp
    · simp [hj]

private theorem dwrrPick_of_find? {idx : ℕ}
    (hcredit : CyclicScan.find? lq.activeSet lq.greenScanIdx lq.hasGreenCredit = none)
    (hfind : CyclicScan.find? lq.activeSet lq.wrrIdx
      (lq.replenished sel.rounds).hasDeficit = some (idx, sel.vn))
    (hwait : ∀ n < sel.rounds,
      CyclicScan.find? lq.activeSet lq.wrrIdx (lq.replenished n).hasDeficit = none)
    (hphase : sel.phase = .dwrr) (hhead : (phys sel.vn).head? = some sel.head) :
    lq.DwrrPick phys sel
      ((lq.replenished sel.rounds).chargeDeficit idx sel.vn sel.head.pktSize) idx := by
  have hmem := CyclicScan.mem_of_find? hfind
  have hfirst := first_of_find? (fun _ hj => lq.hasDeficit_replenished hj) hfind
  have hlifted : lq.LiftedBy sel.rounds sel.vn := by
    obtain ⟨_, _, _, _, hlifted, _⟩ := hfirst
    exact hlifted
  constructor
  · exact hphase
  · intro i hi hcreditable
    have hgreen := lq.hasGreenCredit_iff.mpr hcreditable
    rw [CyclicScan.find?_eq_none.mp hcredit i hi] at hgreen
    contradiction
  · refine ⟨⟨sel.vn, hmem, hlifted⟩, fun r hr => ?_⟩
    obtain ⟨i, hi, hlift⟩ := hr
    by_contra hlt
    have hdeficit := (lq.hasDeficit_replenished hi).mpr hlift
    rw [CyclicScan.find?_eq_none.mp (hwait r (not_le.mp hlt)) i hi] at hdeficit
    contradiction
  · exact hfirst
  · exact hhead
  · simp only [chargeDeficit, modifyVn, replenished, roundsFor, mk.injEq, and_true]
    funext j
    by_cases hj : j = sel.vn
    · subst j
      simp only [hmem, if_true, Function.update_self, VNQueueInfo.mk.injEq, true_and, and_true]
      ring
    · by_cases hactive : j ∈ lq.activeSet
      · simp only [hj, hactive, if_true, if_false, ne_eq, not_false_eq_true,
          Function.update_of_ne, VNQueueInfo.mk.injEq, true_and, and_true, sub_zero]
        ring
      · simp [hj, hactive]

/-- Every call which returns is a pick of one of the two phases. -/
theorem selectVn_pick (hnodup : lq.activeSet.Nodup)
    (hselect : lq.selectVn phys = some (sel, lq')) :
    ∃ idx, lq.GreenPick phys sel lq' idx ∨ lq.DwrrPick phys sel lq' idx := by
  unfold selectVn at hselect
  split at hselect
  next => simp at hselect
  next =>
    cases hfind : CyclicScan.find? lq.activeSet lq.greenScanIdx lq.hasGreenCredit with
    | some found =>
        rcases found with ⟨idx, i⟩
        rw [hfind] at hselect
        rcases Option.map_eq_some_iff.mp hselect with ⟨head, hhead, heq⟩
        simp only [Prod.mk.injEq] at heq
        rcases heq with ⟨hsel, hlq'⟩
        subst sel
        subst lq'
        exact ⟨idx, Or.inl (greenPick_of_find? hfind hhead)⟩
    | none =>
        rw [hfind] at hselect
        have hloop : dwrrLoop phys lq.dwrrFuel 0 (lq.replenished 0) = some (sel, lq') := by
          simpa using hselect
        rcases lq.dwrrLoop_eq_some hnodup hloop with
          ⟨⟨idx, hfound, hlq'⟩, hphase, _, hhead, hnone⟩
        subst lq'
        exact ⟨idx, Or.inr (dwrrPick_of_find? hfind hfound
          (fun n hn => hnone n (Nat.zero_le n) hn) hphase hhead)⟩

/-- `select_vn` returns and meets its specification, for all credits, deficits
and cursors. -/
theorem select_vn_spec (lq : LogicalQueueInfo k) (phys : Fin k → List (QE P))
    (hnodup : lq.activeSet.Nodup) (hweight : ∀ i, 0 < (lq.vnQueues i).weight)
    (hphys : ∀ i, (lq.vnQueues i).size ≠ 0 → phys i ≠ [])
    (hnonempty : ∃ i ∈ lq.activeSet, (lq.vnQueues i).size ≠ 0) :
    ∃ sel lq' idx, lq.selectVn phys = some (sel, lq') ∧
      ((∃ i ∈ lq.activeSet, lq.Creditable i) → lq.GreenPick phys sel lq' idx) ∧
      ((∀ i ∈ lq.activeSet, ¬lq.Creditable i) → lq.DwrrPick phys sel lq' idx) := by
  obtain ⟨j, hj, hsize⟩ := hnonempty
  obtain ⟨sel, lq', hselect⟩ := lq.selectVn_isSome hnodup hweight hphys hj hsize
  obtain ⟨idx, hpick⟩ := selectVn_pick hnodup hselect
  refine ⟨sel, lq', idx, hselect, ?_, ?_⟩
  · intro hcredit
    cases hpick with
    | inl hgreen => exact hgreen
    | inr hdwrr =>
        obtain ⟨i, hi, hcreditable⟩ := hcredit
        exact absurd hcreditable (hdwrr.uncredited i hi)
  · intro hcredit
    cases hpick with
    | inl hgreen =>
        obtain ⟨_, _, _, hget, hcreditable, _⟩ := hgreen.first
        exact absurd hcreditable (hcredit _ (List.mem_of_getElem? hget))
    | inr hdwrr => exact hdwrr

/-- Two VNs in debt and a cursor beyond the active set. -/
def inDebt : LogicalQueueInfo 2 where
  vnQueues i :=
    { size := 1, capacity := 4, weight := 1, weightedDeficit := if i = 0 then -9000 else -4000 }
  size := 2
  LCT := 0
  wrrIdx := 5
  activeSet := [0, 1]

theorem select_vn_spec_inDebt :
    ∃ sel lq' idx, inDebt.selectVn (fun _ => [⟨some 100, 1, 100⟩]) = some (sel, lq') ∧
      inDebt.DwrrPick (fun _ => [⟨some 100, 1, 100⟩]) sel lq' idx := by
  obtain ⟨sel, lq', idx, hselect, -, hdwrr⟩ :=
    select_vn_spec inDebt (fun _ => [⟨some 100, 1, 100⟩]) (by decide) (by simp [inDebt])
      (by simp) ⟨0, by simp [inDebt], by simp [inDebt]⟩
  exact ⟨sel, lq', idx, hselect, hdwrr (by simp [Creditable, inDebt])⟩

end LogicalQueueInfo
end Cmcs
