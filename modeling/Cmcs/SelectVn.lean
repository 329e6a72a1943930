import Cmcs.CyclicScan
import Cmcs.QueueingData
import Mathlib.Tactic

/-!
# The VN layer: idle sweep and two-phase selection

`select_vn` and the sweep which precedes it in `pop_back`, with one
specification lemma each.  The replenish-and-retry loop of Phase 2 is a
recursion on a number of rounds; the number of rounds which the model allows
is enough whenever the weights are positive and some active VN is non-empty.
-/

namespace Cmcs

variable {P : Type} {k : ℕ}

namespace LogicalQueueInfo

variable (lq : LogicalQueueInfo k)

/-! ## Idle-timeout sweep -/

def isIdle (now : Ticks) (i : Fin k) : Bool :=
  (lq.vnQueues i).size = 0 ∧ vnIdleTimeout ≤ now - (lq.vnQueues i).emptySince

/-- The erase-while-iterating loop: the members which stay, and the queue with
the deficits of the erased ones reset. -/
def sweepLoop (now : Ticks) :
    List (Fin k) → LogicalQueueInfo k → List (Fin k) × LogicalQueueInfo k
  | [], lq => ([], lq)
  | i :: rest, lq =>
      if lq.isIdle now i then
        sweepLoop now rest (lq.modifyVn i fun sq => { sq with weightedDeficit := 0 })
      else
        let swept := sweepLoop now rest lq
        (i :: swept.1, swept.2)

def sweep (now : Ticks) : LogicalQueueInfo k :=
  let swept := sweepLoop now lq.activeSet lq
  { swept.2 with activeSet := swept.1 }

def evicted (now : Ticks) : List (Fin k) := lq.activeSet.filter (lq.isIdle now)

theorem isIdle_resetDeficit (now : Ticks) (i j : Fin k) :
    (lq.modifyVn i fun sq => { sq with weightedDeficit := 0 }).isIdle now j =
      lq.isIdle now j := by
  simp only [isIdle, modifyVn_vnQueues]
  split <;> rfl

theorem sweepLoop_eq (now : Ticks) (members : List (Fin k)) :
    sweepLoop now members lq =
      (members.filter fun i => !lq.isIdle now i,
        { lq with
          vnQueues := fun i =>
            if i ∈ members ∧ lq.isIdle now i then
              { lq.vnQueues i with weightedDeficit := 0 }
            else lq.vnQueues i }) := by
  induction members generalizing lq with
  | nil => simp [sweepLoop]
  | cons j rest ih =>
      by_cases hj : lq.isIdle now j
      · rw [sweepLoop, if_pos hj, ih]
        simp only [isIdle_resetDeficit, List.filter_cons, hj, Bool.not_true,
          Bool.false_eq_true, if_false, Prod.mk.injEq, true_and]
        simp only [modifyVn, mk.injEq, and_true]
        funext i
        by_cases hij : i = j
        · subst i
          simp [hj]
        · simp [hij]
      · rw [sweepLoop, if_neg hj]
        simp only [ih, List.filter_cons, hj, Bool.not_false, if_true,
          Prod.mk.injEq, mk.injEq, and_true, true_and]
        funext i
        by_cases hij : i = j
        · subst i
          simp [hj]
        · simp [hij]

theorem sweep_eq (now : Ticks) :
    lq.sweep now =
      { lq with
        vnQueues := fun i => { lq.vnQueues i with
          weightedDeficit := if i ∈ lq.evicted now then 0
            else (lq.vnQueues i).weightedDeficit }
        activeSet := lq.activeSet.filter fun i => !lq.isIdle now i } := by
  simp only [sweep, sweepLoop_eq, evicted, List.mem_filter, mk.injEq, and_true]
  funext i
  split <;> rfl

theorem isIdle_iff {now : Ticks} {i : Fin k} :
    lq.isIdle now i = true ↔
      (lq.vnQueues i).size = 0 ∧ vnIdleTimeout ≤ now - (lq.vnQueues i).emptySince :=
  decide_eq_true_iff

theorem size_eq_zero_of_mem_evicted {now : Ticks} {i : Fin k}
    (hi : i ∈ lq.evicted now) : (lq.vnQueues i).size = 0 :=
  (lq.isIdle_iff.mp (List.mem_filter.mp hi).2).1

/-! ## Two-phase selection -/

def hasGreenCredit (i : Fin k) : Bool :=
  (lq.vnQueues i).size ≠ 0 ∧ 0 < (lq.vnQueues i).greenCredit

def hasDeficit (i : Fin k) : Bool :=
  (lq.vnQueues i).size ≠ 0 ∧ 0 < (lq.vnQueues i).weightedDeficit

theorem hasGreenCredit_iff {i : Fin k} :
    lq.hasGreenCredit i = true ↔
      (lq.vnQueues i).size ≠ 0 ∧ 0 < (lq.vnQueues i).greenCredit :=
  decide_eq_true_iff

theorem hasDeficit_iff {i : Fin k} :
    lq.hasDeficit i = true ↔
      (lq.vnQueues i).size ≠ 0 ∧ 0 < (lq.vnQueues i).weightedDeficit :=
  decide_eq_true_iff

def chargeGreen (idx : ℕ) (i : Fin k) (headSz : ℕ) : LogicalQueueInfo k :=
  { lq.modifyVn i fun sq => { sq with greenCredit := sq.greenCredit - headSz } with
    greenScanIdx := idx + 1 }

def chargeDeficit (idx : ℕ) (i : Fin k) (headSz : ℕ) : LogicalQueueInfo k :=
  { lq.modifyVn i fun sq => { sq with weightedDeficit := sq.weightedDeficit - headSz } with
    wrrIdx := idx + 1 }

def replenish : LogicalQueueInfo k :=
  lq.activeSet.foldl
    (fun lq i => lq.modifyVn i fun sq =>
      { sq with weightedDeficit := sq.weightedDeficit + sq.weight * quantum }) lq

/-- The `while (true)` loop of Phase 2, for at most `fuel` scans; `rounds`
counts the replenishments so far. -/
def dwrrLoop (phys : Fin k → List (QE P)) :
    ℕ → ℕ → LogicalQueueInfo k → Option (Selection P k × LogicalQueueInfo k)
  | 0, _, _ => none
  | fuel + 1, rounds, lq =>
      match CyclicScan.find? lq.activeSet lq.wrrIdx lq.hasDeficit with
      | some (idx, i) =>
          (phys i).head?.map fun head =>
            (⟨i, .dwrr, rounds, lq.activeSet, head⟩,
              lq.chargeDeficit idx i head.pktSize)
      | none => dwrrLoop phys fuel (rounds + 1) lq.replenish

def dwrrFuel : ℕ :=
  (lq.activeSet.map fun i => (lq.vnQueues i).weightedDeficit.natAbs).sum + 2

/-- `select_vn`.  `none` stands for undefined behaviour: a cursor reduced
modulo an empty active set, the front of an empty deque, or a loop which does
not end. -/
def selectVn (phys : Fin k → List (QE P)) :
    Option (Selection P k × LogicalQueueInfo k) :=
  if lq.activeSet = [] then none
  else
    match CyclicScan.find? lq.activeSet lq.greenScanIdx lq.hasGreenCredit with
    | some (idx, i) =>
        (phys i).head?.map fun head =>
          (⟨i, .green, 0, lq.activeSet, head⟩, lq.chargeGreen idx i head.pktSize)
    | none => dwrrLoop phys lq.dwrrFuel 0 lq

/-! ## Replenishment rounds in closed form -/

def replenished (n : ℕ) : LogicalQueueInfo k :=
  { lq with
    vnQueues := fun i => { lq.vnQueues i with
      weightedDeficit := (lq.vnQueues i).weightedDeficit +
        (lq.vnQueues i).weight * quantum * roundsFor lq.activeSet n i } }

@[simp] theorem replenished_zero : lq.replenished 0 = lq := by
  simp [replenished, roundsFor]

theorem foldl_replenish_eq (members : List (Fin k)) (hnodup : members.Nodup) :
    members.foldl
        (fun lq i => lq.modifyVn i fun sq =>
          { sq with weightedDeficit := sq.weightedDeficit + sq.weight * quantum }) lq =
      { lq with
        vnQueues := fun i => { lq.vnQueues i with
          weightedDeficit := (lq.vnQueues i).weightedDeficit +
            if i ∈ members then (lq.vnQueues i).weight * quantum else 0 } } := by
  induction members generalizing lq with
  | nil => simp
  | cons j rest ih =>
      have hj : j ∉ rest := (List.nodup_cons.mp hnodup).1
      rw [List.foldl_cons, ih _ (List.nodup_cons.mp hnodup).2]
      simp only [modifyVn, mk.injEq, and_true]
      funext i
      by_cases hij : i = j
      · subst i
        simp [hj]
      · simp [hij]

theorem replenish_replenished (hnodup : lq.activeSet.Nodup) (n : ℕ) :
    (lq.replenished n).replenish = lq.replenished (n + 1) := by
  unfold replenish
  rw [foldl_replenish_eq _ (lq.replenished n).activeSet hnodup]
  simp only [replenished, roundsFor, mk.injEq, and_true]
  funext i
  by_cases hi : i ∈ lq.activeSet
  · simp only [hi, if_true, VNQueueInfo.mk.injEq, true_and, and_true]
    push_cast
    ring
  · simp [hi]

theorem dwrrLoop_eq_some {phys : Fin k → List (QE P)} (hnodup : lq.activeSet.Nodup)
    {fuel r : ℕ} {sel : Selection P k} {lq' : LogicalQueueInfo k}
    (hloop : dwrrLoop phys fuel r (lq.replenished r) = some (sel, lq')) :
    (∃ idx, CyclicScan.find? lq.activeSet lq.wrrIdx
          (lq.replenished sel.rounds).hasDeficit = some (idx, sel.vn) ∧
        lq' = (lq.replenished sel.rounds).chargeDeficit idx sel.vn sel.head.pktSize) ∧
      sel.phase = .dwrr ∧ sel.active = lq.activeSet ∧
      (phys sel.vn).head? = some sel.head ∧
      ∀ n, r ≤ n → n < sel.rounds →
        CyclicScan.find? lq.activeSet lq.wrrIdx (lq.replenished n).hasDeficit = none := by
  induction fuel generalizing r with
  | zero => simp [dwrrLoop] at hloop
  | succ fuel ih =>
      rw [dwrrLoop] at hloop
      cases hfind : CyclicScan.find? (lq.replenished r).activeSet (lq.replenished r).wrrIdx
          (lq.replenished r).hasDeficit with
      | some found =>
          rcases found with ⟨idx, i⟩
          rw [hfind] at hloop
          rcases Option.map_eq_some_iff.mp hloop with ⟨head, hhead, heq⟩
          simp only [Prod.mk.injEq] at heq
          rcases heq with ⟨hsel, hlq'⟩
          subst sel
          refine ⟨⟨idx, hfind, hlq'.symm⟩, rfl, rfl, hhead, ?_⟩
          intro n hle hlt
          simp only at hlt
          omega
      | none =>
          rw [hfind] at hloop
          simp only [replenish_replenished lq hnodup] at hloop
          rcases ih hloop with ⟨hfound, hphase, hactive, hhead, hnone⟩
          refine ⟨hfound, hphase, hactive, hhead, ?_⟩
          intro n hle hlt
          by_cases hn : n = r
          · subst n
            exact hfind
          · exact hnone n (by omega) hlt

theorem dwrrLoop_isSome {phys : Fin k → List (QE P)} (hnodup : lq.activeSet.Nodup)
    (hhead : ∀ i, (lq.vnQueues i).size ≠ 0 → phys i ≠ [])
    {fuel r n : ℕ} (hfuel : n < fuel) {j : Fin k} (hj : j ∈ lq.activeSet)
    (hsize : (lq.vnQueues j).size ≠ 0)
    (hpos : 0 < (lq.vnQueues j).weightedDeficit +
      (lq.vnQueues j).weight * quantum * (r + n : ℕ)) :
    (dwrrLoop phys fuel r (lq.replenished r)).isSome := by
  induction n generalizing fuel r with
  | zero =>
      cases fuel with
      | zero => omega
      | succ fuel =>
          rw [dwrrLoop]
          cases hfind : CyclicScan.find? (lq.replenished r).activeSet
              (lq.replenished r).wrrIdx (lq.replenished r).hasDeficit with
          | some found =>
              rcases found with ⟨idx, i⟩
              have htest := (hasDeficit_iff _).mp (CyclicScan.find?_eq_some hfind).2
              simp [List.isSome_head?, hhead i htest.1]
          | none =>
              have htest := CyclicScan.find?_eq_none.mp hfind j hj
              have hdeficit : (lq.replenished r).hasDeficit j = true := by
                rw [hasDeficit_iff]
                simpa [replenished, roundsFor, hsize, hj] using hpos
              rw [hdeficit] at htest
              contradiction
  | succ n ih =>
      cases fuel with
      | zero => omega
      | succ fuel =>
          rw [dwrrLoop]
          cases hfind : CyclicScan.find? (lq.replenished r).activeSet
              (lq.replenished r).wrrIdx (lq.replenished r).hasDeficit with
          | some found =>
              rcases found with ⟨idx, i⟩
              have htest := (hasDeficit_iff _).mp (CyclicScan.find?_eq_some hfind).2
              simp [List.isSome_head?, hhead i htest.1]
          | none =>
              simp only [replenish_replenished lq hnodup]
              apply ih (by omega)
              rwa [show r + 1 + n = r + (n + 1) by omega]

/-! ## Specification of `select_vn` -/

/-- What one call of `select_vn` does to the queue, in both phases.  Phase 2
is reached only when no non-empty member has credit, and replenishes only
while no non-empty member has a positive deficit. -/
structure Selected (phys : Fin k → List (QE P)) (sel : Selection P k)
    (lq' : LogicalQueueInfo k) : Prop where
  vn_mem : sel.vn ∈ lq.activeSet
  vn_nonempty : (lq.vnQueues sel.vn).size ≠ 0
  head_eq : (phys sel.vn).head? = some sel.head
  active_eq : sel.active = lq.activeSet
  green_credit : sel.phase = .green → 0 < (lq.vnQueues sel.vn).greenCredit
  green_rounds : sel.phase = .green → sel.rounds = 0
  dwrr_credit : sel.phase = .dwrr → ∀ i ∈ lq.activeSet,
    (lq.vnQueues i).size ≠ 0 → (lq.vnQueues i).greenCredit ≤ 0
  dwrr_deficit : sel.phase = .dwrr →
    0 < (lq.vnQueues sel.vn).weightedDeficit +
      (lq.vnQueues sel.vn).weight * quantum * sel.rounds
  dwrr_waited : ∀ r < sel.rounds, ∀ i ∈ lq.activeSet, (lq.vnQueues i).size ≠ 0 →
    (lq.vnQueues i).weightedDeficit + (lq.vnQueues i).weight * quantum * r ≤ 0
  result : lq' = { lq with
    vnQueues := fun i => { lq.vnQueues i with
      greenCredit := (lq.vnQueues i).greenCredit - sel.greenCharge i
      weightedDeficit := (lq.vnQueues i).weightedDeficit +
        (lq.vnQueues i).weight * quantum * sel.roundsOf i - sel.dwrrCharge i }
    greenScanIdx := lq'.greenScanIdx
    wrrIdx := lq'.wrrIdx }

private theorem selected_of_green {phys : Fin k → List (QE P)} {idx : ℕ} {i : Fin k}
    {head : QE P}
    (hfind : CyclicScan.find? lq.activeSet lq.greenScanIdx lq.hasGreenCredit =
      some (idx, i))
    (hhead : (phys i).head? = some head) :
    lq.Selected phys ⟨i, .green, 0, lq.activeSet, head⟩
      (lq.chargeGreen idx i head.pktSize) := by
  have htest := lq.hasGreenCredit_iff.mp (CyclicScan.find?_eq_some hfind).2
  refine
    { vn_mem := CyclicScan.mem_of_find? hfind
      vn_nonempty := htest.1
      head_eq := hhead
      active_eq := rfl
      green_credit := fun _ => htest.2
      green_rounds := fun _ => rfl
      dwrr_credit := fun hphase => by contradiction
      dwrr_deficit := fun hphase => by contradiction
      dwrr_waited := fun r hr => absurd hr (Nat.not_lt_zero r)
      result := ?_ }
  simp only [chargeGreen, modifyVn, Selection.greenCharge, Selection.dwrrCharge,
    Selection.roundsOf, roundsFor, mk.injEq, and_true]
  funext j
  by_cases hj : j = i
  · subst j
    simp
  · simp [hj, Ne.symm hj]

private theorem selected_of_dwrr {phys : Fin k → List (QE P)} {idx : ℕ}
    {sel : Selection P k}
    (hcredit : CyclicScan.find? lq.activeSet lq.greenScanIdx lq.hasGreenCredit = none)
    (hfind : CyclicScan.find? lq.activeSet lq.wrrIdx
      (lq.replenished sel.rounds).hasDeficit = some (idx, sel.vn))
    (hwait : ∀ n < sel.rounds,
      CyclicScan.find? lq.activeSet lq.wrrIdx (lq.replenished n).hasDeficit = none)
    (hphase : sel.phase = .dwrr) (hactive : sel.active = lq.activeSet)
    (hhead : (phys sel.vn).head? = some sel.head) :
    lq.Selected phys sel
      ((lq.replenished sel.rounds).chargeDeficit idx sel.vn sel.head.pktSize) := by
  have hmem := CyclicScan.mem_of_find? hfind
  have htest := (hasDeficit_iff _).mp (CyclicScan.find?_eq_some hfind).2
  simp only [replenished, roundsFor, hmem, if_true] at htest
  refine
    { vn_mem := hmem
      vn_nonempty := htest.1
      head_eq := hhead
      active_eq := hactive
      green_credit := fun hgreen => by simp [hphase] at hgreen
      green_rounds := fun hgreen => by simp [hphase] at hgreen
      dwrr_credit := ?_
      dwrr_deficit := fun _ => htest.2
      dwrr_waited := ?_
      result := ?_ }
  · intro _ i hi hsize
    by_contra hpos
    have hgreen := lq.hasGreenCredit_iff.mpr ⟨hsize, not_le.mp hpos⟩
    rw [CyclicScan.find?_eq_none.mp hcredit i hi] at hgreen
    contradiction
  · intro r hr i hi hsize
    by_contra hpos
    have hdeficit : (lq.replenished r).hasDeficit i = true := by
      rw [hasDeficit_iff]
      simpa [replenished, roundsFor, hi, hsize] using hpos
    rw [CyclicScan.find?_eq_none.mp (hwait r hr) i hi] at hdeficit
    contradiction
  · simp only [chargeDeficit, modifyVn, replenished, Selection.greenCharge,
      Selection.dwrrCharge, Selection.roundsOf, roundsFor, hphase, hactive, mk.injEq, and_true]
    funext j
    by_cases hj : j = sel.vn
    · subst j
      simp [hmem]
    · simp [hj, Ne.symm hj]

theorem selectVn_selected {phys : Fin k → List (QE P)} {sel : Selection P k}
    {lq' : LogicalQueueInfo k} (hnodup : lq.activeSet.Nodup)
    (hselect : lq.selectVn phys = some (sel, lq')) : lq.Selected phys sel lq' := by
  unfold selectVn at hselect
  split at hselect
  next => simp at hselect
  next =>
    cases hfind : CyclicScan.find? lq.activeSet lq.greenScanIdx lq.hasGreenCredit with
    | some found =>
        rcases found with ⟨idx, i⟩
        rw [hfind] at hselect
        rcases Option.map_eq_some_iff.mp hselect with ⟨head, hhead, heq⟩
        simp only [Prod.mk.injEq] at heq
        rcases heq with ⟨hsel, hlq'⟩
        subst sel
        subst lq'
        exact lq.selected_of_green hfind hhead
    | none =>
        rw [hfind] at hselect
        have hloop : dwrrLoop phys lq.dwrrFuel 0 (lq.replenished 0) = some (sel, lq') := by
          simpa using hselect
        rcases lq.dwrrLoop_eq_some hnodup hloop with
          ⟨⟨idx, hfound, hlq'⟩, hphase, hactive, hhead, hnone⟩
        subst lq'
        exact lq.selected_of_dwrr hfind hfound (fun n hn => hnone n (Nat.zero_le n) hn)
          hphase hactive hhead

/-- `select_vn` returns whenever the weights are positive, the deques hold
what the sizes announce and some active VN is non-empty. -/
theorem selectVn_isSome {phys : Fin k → List (QE P)} (hnodup : lq.activeSet.Nodup)
    (hweight : ∀ i, 0 < (lq.vnQueues i).weight)
    (hhead : ∀ i, (lq.vnQueues i).size ≠ 0 → phys i ≠ []) {j : Fin k}
    (hj : j ∈ lq.activeSet) (hsize : (lq.vnQueues j).size ≠ 0) :
    ∃ sel lq', lq.selectVn phys = some (sel, lq') := by
  have hsome : (lq.selectVn phys).isSome := by
    unfold selectVn
    rw [if_neg (List.ne_nil_of_mem hj)]
    cases hfind : CyclicScan.find? lq.activeSet lq.greenScanIdx lq.hasGreenCredit with
    | some found =>
        rcases found with ⟨idx, i⟩
        have htest := lq.hasGreenCredit_iff.mp (CyclicScan.find?_eq_some hfind).2
        simp [List.isSome_head?, hhead i htest.1]
    | none =>
        have hle : (lq.vnQueues j).weightedDeficit.natAbs ≤
            (lq.activeSet.map fun i => (lq.vnQueues i).weightedDeficit.natAbs).sum :=
          List.single_le_sum (by simp) _ (List.mem_map.mpr ⟨j, hj, rfl⟩)
        have hround : 1 ≤ (lq.vnQueues j).weight * quantum :=
          Int.mul_pos (hweight j) (by decide)
        have hpos : 0 < (lq.vnQueues j).weightedDeficit + (lq.vnQueues j).weight * quantum *
            ((0 + ((lq.vnQueues j).weightedDeficit.natAbs + 1) : ℕ) : ℤ) := by
          push_cast
          nlinarith [neg_abs_le (lq.vnQueues j).weightedDeficit,
            abs_nonneg (lq.vnQueues j).weightedDeficit]
        have hfuel : (lq.vnQueues j).weightedDeficit.natAbs + 1 < lq.dwrrFuel := by
          unfold dwrrFuel
          omega
        have hloop := lq.dwrrLoop_isSome hnodup hhead hfuel hj hsize hpos
        simpa using hloop
  rcases Option.isSome_iff_exists.mp hsome with ⟨⟨sel, lq'⟩, heq⟩
  exact ⟨sel, lq', heq⟩

end LogicalQueueInfo

end Cmcs
