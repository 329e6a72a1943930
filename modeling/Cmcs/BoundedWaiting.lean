import Cmcs.PortLedger
import Cmcs.SelectSpec
import Mathlib.Tactic

/-!
# Bounded waiting inside each phase

A VN which a phase could pick waits at most for the members between the cursor
of the phase and itself, `k - 1` of them, and anew after each erasure.  The
cursors are never adjusted when the active set shrinks or grows; the measure
`waiting` of the cyclic scan allows for that.
-/

namespace Cmcs

variable {P : Type} {k : ℕ}

namespace Event

def isSelectIn (ph : Phase) : Event P k → Bool
  | .select sel => sel.phase = ph
  | _ => false

/-- Number of members which the sweep erases. -/
def erased : Event P k → ℕ
  | .sweep _ evicted => evicted.length
  | _ => 0

end Event

def erasures (events : List (Event P k)) : ℕ := (events.map Event.erased).sum

namespace LogicalQueueInfo

variable (lq : LogicalQueueInfo k)

def cursor : Phase → ℕ
  | .green => lq.greenScanIdx
  | .dwrr => lq.wrrIdx

/-- What phase `ph` looks for after `r` replenishment rounds. -/
def Pickable (ph : Phase) (r : ℕ) (i : Fin k) : Prop :=
  match ph with
  | .green => lq.Creditable i
  | .dwrr => lq.LiftedBy r i

theorem selectVn_first {phys : Fin k → List (QE P)} {sel : Selection P k}
    {lq' : LogicalQueueInfo k} (hnodup : lq.activeSet.Nodup)
    (hselect : lq.selectVn phys = some (sel, lq')) :
    ∃ idx, CyclicScan.First lq.activeSet (lq.cursor sel.phase)
        (lq.Pickable sel.phase sel.rounds) idx sel.vn ∧
      lq'.activeSet = lq.activeSet ∧
      ∀ ph, lq'.cursor ph = if sel.phase = ph then idx + 1 else lq.cursor ph := by
  obtain ⟨idx, hpick⟩ := selectVn_pick hnodup hselect
  refine ⟨idx, ?_⟩
  cases hpick with
  | inl hgreen =>
      rw [hgreen.phase, hgreen.result]
      refine ⟨hgreen.first, rfl, fun ph => ?_⟩
      cases ph <;> rfl
  | inr hdwrr =>
      rw [hdwrr.phase, hdwrr.result]
      refine ⟨hdwrr.first, rfl, fun ph => ?_⟩
      cases ph <;> rfl

end LogicalQueueInfo

namespace Port

open TransitionSystem

variable {p p' q : Port P k} {e : Event P k} {ph : Phase} {j : Fin k}

/-- How many picks of phase `ph`, at most, VN `j` waits for. -/
def waiting (ph : Phase) (j : Fin k) (p : Port P k) : ℕ :=
  CyclicScan.waiting k p.info.activeSet (p.info.cursor ph) j

theorem WellFormed.length_active_le (hwf : p.WellFormed) : p.info.activeSet.length ≤ k := by
  have hle := hwf.nodup.length_le_card
  rwa [Fintype.card_fin] at hle

theorem waiting_le (hwf : p.WellFormed) : waiting ph j p ≤ k - 1 :=
  CyclicScan.waiting_le hwf.length_active_le

theorem waiting_congr (hactive : p'.info.activeSet = p.info.activeSet)
    (hcursor : p'.info.cursor ph = p.info.cursor ph) : waiting ph j p' = waiting ph j p := by
  unfold waiting
  rw [hactive, hcursor]

theorem sweep_active_of_evicted_nil {now : Ticks} (hnone : p.info.evicted now = []) :
    (p.sweep now).info.activeSet = p.info.activeSet := by
  simp only [Port.sweep, LogicalQueueInfo.sweep_eq]
  apply List.filter_eq_self.mpr
  intro i hi
  cases hidle : p.info.isIdle now i with
  | false => rfl
  | true =>
      have hevicted : i ∈ p.info.evicted now := List.mem_filter.mpr ⟨hi, hidle⟩
      rw [hnone] at hevicted
      contradiction

theorem waiting_sweep_le (hwf : p.WellFormed) (now : Ticks) :
    waiting ph j (p.sweep now) ≤ waiting ph j p + (p.info.evicted now).length * (k - 1) := by
  by_cases hnone : p.info.evicted now = []
  · have hsame : waiting ph j (p.sweep now) = waiting ph j p := by
      apply waiting_congr (sweep_active_of_evicted_nil hnone)
      simp only [Port.sweep, LogicalQueueInfo.sweep_eq]
      cases ph <;> rfl
    omega
  · have hbound : waiting ph j (p.sweep now) ≤ k - 1 := waiting_le (hwf.sweep now)
    have hpaid : 1 * (k - 1) ≤ (p.info.evicted now).length * (k - 1) :=
      Nat.mul_le_mul_right _ (List.length_pos_iff.mpr hnone)
    omega

variable [IngressPacket P]

theorem push_active (p : Port P k) (v : Fin k) (color : ℕ) (item : Option P) :
    (p.push v color item).info.activeSet = p.info.activeSet ∨
      v ∉ p.info.activeSet ∧
        (p.push v color item).info.activeSet = p.info.activeSet ++ [v] := by
  unfold Port.push
  cases hfull : p.full v with
  | true =>
      simp only [if_true, LogicalQueueInfo.accrue_eq]
      exact Or.inl trivial
  | false =>
      simp only [Bool.false_eq_true, if_false, LogicalQueueInfo.accrue_eq,
        LogicalQueueInfo.accept_eq]
      by_cases hv : v ∈ p.info.activeSet
      · exact Or.inl (if_pos hv)
      · exact Or.inr ⟨hv, if_neg hv⟩

theorem push_cursor (p : Port P k) (v : Fin k) (color : ℕ) (item : Option P) (ph : Phase) :
    (p.push v color item).info.cursor ph = p.info.cursor ph := by
  unfold Port.push
  cases hfull : p.full v <;> cases ph <;>
    simp [LogicalQueueInfo.accrue_eq, LogicalQueueInfo.accept_eq, LogicalQueueInfo.cursor]

theorem waiting_push_le (hwf : p.WellFormed) (v : Fin k) (color : ℕ) (item : Option P) :
    waiting ph j (p.push v color item) ≤ waiting ph j p := by
  have hlength := (hwf.push v color item).length_active_le
  cases push_active p v color item with
  | inl hsame => exact (waiting_congr hsame (push_cursor p v color item ph)).le
  | inr hjoin =>
      unfold waiting
      rw [hjoin.2, List.length_append, List.length_singleton] at hlength
      rw [hjoin.2, push_cursor]
      exact CyclicScan.waiting_append_le (by omega)

omit [IngressPacket P] in
/-- A pick of the phase which passes over the VN is paid out of the measure. -/
theorem waiting_select_le (hwf : p.WellFormed) {sel : Selection P k} {lq' : LogicalQueueInfo k}
    (hselect : p.info.selectVn p.phys = some (sel, lq'))
    (hpassed : sel.phase = ph → p.info.Pickable ph sel.rounds j ∧ sel.vn ≠ j) :
    (if sel.phase = ph then 1 else 0) +
        waiting ph j { p with info := { lq' with pendingVn := some sel.vn } } ≤
      waiting ph j p := by
  obtain ⟨idx, hfirst, hactive, hcursor⟩ := p.info.selectVn_first hwf.nodup hselect
  have hcursor' : ({ lq' with pendingVn := some sel.vn } : LogicalQueueInfo k).cursor ph =
      if sel.phase = ph then idx + 1 else p.info.cursor ph := by
    rw [← hcursor ph]
    cases ph <;> rfl
  have hwait : waiting ph j { p with info := { lq' with pendingVn := some sel.vn } } =
      CyclicScan.waiting k p.info.activeSet
        (if sel.phase = ph then idx + 1 else p.info.cursor ph) j := by
    rw [← hactive, ← hcursor']
    rfl
  rw [hwait]
  split
  next hphase =>
    obtain ⟨hpickable, hne⟩ := hpassed hphase
    have hsize : (p.vn j).size ≠ 0 := by
      cases ph with
      | green => exact hpickable.1
      | dwrr => exact hpickable.1
    rw [hphase] at hfirst
    rw [add_comm]
    unfold waiting
    exact CyclicScan.waiting_pick hfirst (hwf.active j hsize) hpickable hne
      hwf.length_active_le
  next => simp [waiting]

/-- One step pays for its pick out of the measure, and an erasure pays for a
new measure. -/
theorem waiting_step (hwf : p.WellFormed) (hstep : Step p e p')
    (hpassed : ∀ sel, e = .select sel → sel.phase = ph →
      p.info.Pickable ph sel.rounds j ∧ sel.vn ≠ j) :
    (if e.isSelectIn ph then 1 else 0) + waiting ph j p' ≤
      waiting ph j p + e.erased * (k - 1) := by
  cases hstep with
  | push v color item =>
      have hle : waiting ph j (p.push v color item) ≤ waiting ph j p :=
        waiting_push_le hwf v color item
      simpa [Event.isSelectIn, Event.erased] using hle
  | sweep now =>
      have hle : waiting ph j (p.sweep now) ≤ _ := waiting_sweep_le hwf now
      simpa [Event.isSelectIn, Event.erased] using hle
  | @select sel lq' _ _ hselect =>
      have hle := waiting_select_le hwf hselect (hpassed sel rfl)
      simpa [Event.isSelectIn, Event.erased] using hle
  | defer => simp [Event.isSelectIn, Event.erased]
  | @release now v qe =>
      have hsame : waiting ph j (p.release now v qe) = waiting ph j p := by
        apply waiting_congr
        · simp [Port.release, LogicalQueueInfo.depart_eq, LogicalQueueInfo.conform]
        · cases ph <;>
            simp [Port.release, LogicalQueueInfo.depart_eq, LogicalQueueInfo.conform,
              LogicalQueueInfo.cursor]
      simp [Event.isSelectIn, Event.erased, hsame]
  | setVnCapacity v c =>
      have hsame : waiting ph j
          { p with info := p.info.modifyVn v fun sq => { sq with capacity := c } } =
            waiting ph j p :=
        waiting_congr rfl (by cases ph <;> rfl)
      simp [Event.isSelectIn, Event.erased, hsame]
  | setQueueCapacity c =>
      have hsame : waiting ph j { p with info := p.info.setCapacities c } = waiting ph j p :=
        waiting_congr rfl (by cases ph <;> rfl)
      simp [Event.isSelectIn, Event.erased, hsame]
  | setRate bps =>
      have hsame : waiting ph j { p with info := { p.info with dequeueRateBps := bps } } =
          waiting ph j p :=
        waiting_congr rfl (by cases ph <;> rfl)
      simp [Event.isSelectIn, Event.erased, hsame]

/-! ## The two phases -/

/-- A step at which VN `j` is not selected although it is non-empty and has
credit. -/
def CreditedStep (j : Fin k) (p : Port P k) (e : Event P k) (p' : Port P k) : Prop :=
  Step p e p' ∧ ∀ sel, e = .select sel →
    (p.vn j).size ≠ 0 ∧ 0 < (p.vn j).greenCredit ∧ sel.vn ≠ j

/-- A step at which Phase 2 does not select VN `j` although it is non-empty and
has a positive deficit, counting the rounds of the same call. -/
def LiftedStep (j : Fin k) (p : Port P k) (e : Event P k) (p' : Port P k) : Prop :=
  Step p e p' ∧ ∀ sel, e = .select sel → sel.phase = .dwrr →
    (p.vn j).size ≠ 0 ∧
      0 < (p.vn j).weightedDeficit + sel.rounds * (p.vn j).weight * quantum ∧ sel.vn ≠ j

variable {segment : List (Event P k)}

theorem CreditedStep.isSelect_eq (hwf : p.WellFormed) (hstep : CreditedStep j p e p') :
    e.isSelect = e.isSelectIn .green := by
  rcases hstep with ⟨hstep, hcredited⟩
  cases hstep with
  | @select sel lq' _ _ hselect =>
      have hspec := p.info.selectVn_selected hwf.nodup hselect
      obtain ⟨hsize, hcredit, -⟩ := hcredited sel rfl
      cases hphase : sel.phase with
      | green => simp [Event.isSelect, Event.isSelectIn, hphase]
      | dwrr =>
          have hle := hspec.dwrr_credit hphase j (hwf.active j hsize) hsize
          exact absurd hcredit (not_lt.mpr hle)
  | _ => rfl

theorem selections_credited (hwf : q.WellFormed) (hrun : Run (CreditedStep j) q segment p) :
    segment.countP Event.isSelect + waiting .green j p ≤
      waiting .green j q + (segment.map fun e => e.erased * (k - 1)).sum := by
  refine (hrun.strengthen (I := WellFormed) (fun _ _ _ hs hstep => hs.step hstep.1)
    hwf).amortize ?_
  intro s e s' hstep
  rcases hstep with ⟨hs, hstep⟩
  rw [hstep.isSelect_eq hs]
  apply waiting_step hs hstep.1
  intro sel hsel _
  obtain ⟨hsize, hcredit, hne⟩ := hstep.2 sel hsel
  exact ⟨⟨hsize, hcredit⟩, hne⟩

theorem selections_lifted (hwf : q.WellFormed) (hrun : Run (LiftedStep j) q segment p) :
    segment.countP (Event.isSelectIn .dwrr) + waiting .dwrr j p ≤
      waiting .dwrr j q + (segment.map fun e => e.erased * (k - 1)).sum := by
  refine (hrun.strengthen (I := WellFormed) (fun _ _ _ hs hstep => hs.step hstep.1)
    hwf).amortize ?_
  intro s e s' hstep
  rcases hstep with ⟨hs, hstep⟩
  apply waiting_step hs hstep.1
  intro sel hsel hphase
  obtain ⟨hsize, hdeficit, hne⟩ := hstep.2 sel hsel hphase
  exact ⟨⟨hsize, hdeficit⟩, hne⟩

/-- Bounded waiting: in every segment of a run during which the sweep erases at
most `E` members, a VN with credit is passed over at most `(E + 1) (k - 1)`
times, and so is, by Phase 2, a VN with a positive deficit. -/
theorem bounded_waiting {capacity : ℕ} {weights : Fin k → ℤ} {now : Ticks}
    {before : List (Event P k)} {E : ℕ} (hweights : ∀ i, 0 < weights i)
    (hbefore : Run Step (initial capacity weights now) before q)
    (hE : erasures segment ≤ E) (j : Fin k) :
    (Run (CreditedStep j) q segment p →
      segment.countP Event.isSelect ≤ (E + 1) * (k - 1)) ∧
    (Run (LiftedStep j) q segment p →
      segment.countP (Event.isSelectIn .dwrr) ≤ (E + 1) * (k - 1)) := by
  have hwf : q.WellFormed := (wellFormed_initial capacity hweights now).run hbefore
  have hcredits : (segment.map fun e => e.erased * (k - 1)).sum ≤ E * (k - 1) := by
    rw [List.sum_map_mul_right]
    exact Nat.mul_le_mul_right _ hE
  have hsplit : (E + 1) * (k - 1) = E * (k - 1) + (k - 1) := by ring
  constructor
  · intro hrun
    have hcount := selections_credited hwf hrun
    have hstart : waiting .green j q ≤ k - 1 := waiting_le hwf
    omega
  · intro hrun
    have hcount := selections_lifted hwf hrun
    have hstart : waiting .dwrr j q ≤ k - 1 := waiting_le hwf
    omega

theorem bounded_waiting_two_vns :
    ∃ p, Run (CreditedStep 1)
        (((initial 64 (fun _ => 1) 0 : Port ℕ 2).push 0 0 (some 100)).push 1 0 (some 100))
        [.select ⟨0, .green, 0, [0, 1], ⟨some 100, 0, 100⟩⟩] p ∧
      ([.select ⟨0, .green, 0, [0, 1], ⟨some 100, 0, 100⟩⟩] : List (Event ℕ 2)).countP
        Event.isSelect ≤ (0 + 1) * (2 - 1) := by
  have hbefore : Run Step (initial 64 (fun _ => 1) 0 : Port ℕ 2)
      [.push 0 0 (some 100) true, .push 1 0 (some 100) true]
      (((initial 64 (fun _ => 1) 0 : Port ℕ 2).push 0 0 (some 100)).push 1 0 (some 100)) :=
    (Run.single (Step.push _ 0 0 (some 100))).snoc (Step.push _ 1 0 (some 100))
  have hselect : Step
      (((initial 64 (fun _ => 1) 0 : Port ℕ 2).push 0 0 (some 100)).push 1 0 (some 100))
      (.select ⟨0, .green, 0, [0, 1], ⟨some 100, 0, 100⟩⟩) _ :=
    Step.select rfl (by decide) rfl
  have hcredited : CreditedStep 1 _ _ _ := ⟨hselect, fun sel hsel => by cases hsel; decide⟩
  have hrun := Run.single hcredited
  exact ⟨_, hrun, (bounded_waiting (by decide) hbefore (by decide) 1).1 hrun⟩

end Port
end Cmcs
