import Cmcs.PortMachine
import Mathlib.Algebra.BigOperators.Group.Finset.Basic
import Mathlib.Tactic

/-!
# Representation invariant of one logical queue

The counters of a logical queue agree with its deques, the active set holds
every non-empty VN once, a pending decision names a non-empty VN and only
active VNs carry a deficit.  One preservation lemma for each kind of step.
-/

namespace Cmcs
namespace Port

variable {P : Type} {k : ℕ} {p p' : Port P k}

structure WellFormed (p : Port P k) : Prop where
  size_eq : ∀ v, (p.info.vnQueues v).size = (p.phys v).length
  total : p.info.size = ∑ v, (p.info.vnQueues v).size
  nodup : p.info.activeSet.Nodup
  active : ∀ v, (p.info.vnQueues v).size ≠ 0 → v ∈ p.info.activeSet
  pending : ∀ v, p.info.pendingVn = some v → (p.info.vnQueues v).size ≠ 0
  inactive : ∀ v, v ∉ p.info.activeSet → (p.info.vnQueues v).weightedDeficit = 0
  weight_pos : ∀ v, 0 < (p.info.vnQueues v).weight

theorem wellFormed_initial (capacity : ℕ) {weights : Fin k → ℤ}
    (hweights : ∀ v, 0 < weights v) (now : Ticks) :
    (initial capacity weights now : Port P k).WellFormed := by
  constructor <;> simp [initial, LogicalQueueInfo.new, hweights]

theorem exists_nonempty (hwf : p.WellFormed) (hsize : p.info.size ≠ 0) :
    ∃ v, (p.info.vnQueues v).size ≠ 0 := by
  by_contra hall
  push Not at hall
  apply hsize
  rw [hwf.total]
  exact Finset.sum_eq_zero fun v _ => hall v

private theorem sum_add_ite (f : Fin k → ℕ) (v : Fin k) :
    ∑ i, (f i + if v = i then 1 else 0) = ∑ i, f i + 1 := by
  rw [Finset.sum_add_distrib, Finset.sum_ite_eq Finset.univ v]
  simp

private theorem sum_sub_ite (f : Fin k → ℕ) {v : Fin k} (hv : f v ≠ 0) :
    ∑ i, (f i - if v = i then 1 else 0) = ∑ i, f i - 1 := by
  have hback : ∀ i, f i = (f i - if v = i then 1 else 0) + if v = i then 1 else 0 := by
    intro i
    by_cases hi : v = i
    · subst i
      simp
      omega
    · simp [hi]
  have hsum := sum_add_ite (fun i => f i - if v = i then 1 else 0) v
  simp only [← hback] at hsum
  omega

theorem WellFormed.congr (hwf : p.WellFormed) (hphys : p'.phys = p.phys)
    (hsize : ∀ v, (p'.info.vnQueues v).size = (p.info.vnQueues v).size)
    (htotal : p'.info.size = p.info.size)
    (hactive : p'.info.activeSet = p.info.activeSet)
    (hpending : p'.info.pendingVn = p.info.pendingVn)
    (hdeficit : ∀ v, (p'.info.vnQueues v).weightedDeficit =
      (p.info.vnQueues v).weightedDeficit)
    (hweight : ∀ v, (p'.info.vnQueues v).weight = (p.info.vnQueues v).weight) :
    p'.WellFormed := by
  constructor
  · intro v
    rw [hsize, hphys, hwf.size_eq]
  · simp only [hsize, htotal, hwf.total]
  · rw [hactive]
    exact hwf.nodup
  · intro v hv
    rw [hsize] at hv
    rw [hactive]
    exact hwf.active v hv
  · intro v hv
    rw [hpending] at hv
    rw [hsize]
    exact hwf.pending v hv
  · intro v hv
    rw [hactive] at hv
    rw [hdeficit]
    exact hwf.inactive v hv
  · intro v
    rw [hweight]
    exact hwf.weight_pos v

/-! ## Preservation -/

theorem WellFormed.sweep (hwf : p.WellFormed) (now : Ticks) :
    (p.sweep now).WellFormed := by
  have hstays : ∀ i ∈ p.info.activeSet, i ∉ p.info.evicted now →
      i ∈ p.info.activeSet.filter fun j => !p.info.isIdle now j := by
    intro i hi hevicted
    refine List.mem_filter.mpr ⟨hi, ?_⟩
    cases hidle : p.info.isIdle now i with
    | false => rfl
    | true => exact absurd (List.mem_filter.mpr ⟨hi, hidle⟩) hevicted
  unfold Port.sweep
  rw [LogicalQueueInfo.sweep_eq]
  constructor
  · exact hwf.size_eq
  · exact hwf.total
  · exact hwf.nodup.filter _
  · intro i hi
    apply hstays i (hwf.active i hi)
    intro hevicted
    exact hi (p.info.size_eq_zero_of_mem_evicted hevicted)
  · exact hwf.pending
  · intro i hi
    by_cases hevicted : i ∈ p.info.evicted now
    · simp [hevicted]
    · simp only [hevicted, if_false]
      exact hwf.inactive i fun hactive => hi (hstays i hactive hevicted)
  · exact hwf.weight_pos

theorem WellFormed.select (hwf : p.WellFormed) {sel : Selection P k}
    {lq' : LogicalQueueInfo k} (hselect : p.info.selectVn p.phys = some (sel, lq')) :
    WellFormed { p with info := { lq' with pendingVn := some sel.vn } } := by
  have hspec := p.info.selectVn_selected hwf.nodup hselect
  rw [hspec.result]
  constructor
  · exact hwf.size_eq
  · exact hwf.total
  · exact hwf.nodup
  · exact hwf.active
  · intro i hi
    simp only [Option.some.injEq] at hi
    subst i
    exact hspec.vn_nonempty
  · intro i hi
    have hne : sel.vn ≠ i := fun heq => hi (heq ▸ hspec.vn_mem)
    have hactive : i ∉ sel.active := by
      rw [hspec.active_eq]
      exact hi
    simp [Selection.roundsOf, roundsFor, Selection.dwrrCharge, hne, hactive, hwf.inactive i hi]
  · exact hwf.weight_pos

theorem WellFormed.release (hwf : p.WellFormed) (now : Ticks) {v : Fin k} {qe : QE P}
    (hhead : (p.phys v).head? = some qe) : (p.release now v qe).WellFormed := by
  have hlength : (p.info.vnQueues v).size ≠ 0 := by
    rw [hwf.size_eq]
    intro hzero
    rw [List.length_eq_zero_iff.mp hzero] at hhead
    simp at hhead
  unfold Port.release
  rw [LogicalQueueInfo.depart_eq]
  constructor
  · intro i
    by_cases hi : v = i
    · subst i
      simp [LogicalQueueInfo.conform, hwf.size_eq v]
    · simp [LogicalQueueInfo.conform, hi, Ne.symm hi, hwf.size_eq i]
  · simp only [LogicalQueueInfo.conform]
    rw [sum_sub_ite _ hlength, hwf.total]
  · exact hwf.nodup
  · intro i hi
    apply hwf.active i
    simp only [LogicalQueueInfo.conform] at hi
    omega
  · intro i hi
    simp [LogicalQueueInfo.conform] at hi
  · exact hwf.inactive
  · exact hwf.weight_pos

theorem WellFormed.setVnCapacity (hwf : p.WellFormed) (v : Fin k) (c : ℕ) :
    WellFormed
      { p with info := p.info.modifyVn v fun sq => { sq with capacity := c } } := by
  refine hwf.congr rfl ?_ rfl rfl rfl ?_ ?_
  all_goals
    intro i
    simp only [LogicalQueueInfo.modifyVn_vnQueues]
    split <;> rfl

variable [IngressPacket P]

theorem push_size (p : Port P k) (v : Fin k) (color : ℕ) (item : Option P) :
    (p.push v color item).info.size = p.info.size + if p.full v then 0 else 1 := by
  unfold Port.push
  split
  next => simp only [LogicalQueueInfo.accrue_eq, add_zero]
  next => simp only [LogicalQueueInfo.accept_eq, LogicalQueueInfo.accrue_eq]

theorem WellFormed.push (hwf : p.WellFormed) (v : Fin k) (color : ℕ)
    (item : Option P) : (p.push v color item).WellFormed := by
  unfold Port.push
  cases hfull : p.full v with
  | true =>
      simp only [if_true, LogicalQueueInfo.accrue_eq]
      exact hwf.congr rfl (fun _ => rfl) rfl rfl rfl (fun _ => rfl) fun _ => rfl
  | false =>
      simp only [Bool.false_eq_true, if_false, LogicalQueueInfo.accrue_eq,
        LogicalQueueInfo.accept_eq]
      have hmem : ∀ i, i ∈ (if v ∈ p.info.activeSet then p.info.activeSet
          else p.info.activeSet ++ [v]) ↔ i = v ∨ i ∈ p.info.activeSet := by
        intro i
        by_cases hv : v ∈ p.info.activeSet
        · simp only [hv, if_true]
          constructor
          · exact Or.inr
          · intro hi
            cases hi with
            | inl heq => exact heq ▸ hv
            | inr hi => exact hi
        · simp [hv, or_comm]
      constructor
      · intro i
        by_cases hi : v = i
        · subst i
          simp [hwf.size_eq v]
        · simp [hi, Ne.symm hi, hwf.size_eq i]
      · simp only [sum_add_ite, hwf.total]
      · by_cases hv : v ∈ p.info.activeSet
        · simpa [hv] using hwf.nodup
        · simp only [hv, if_false]
          exact List.nodup_append.mpr ⟨hwf.nodup, List.nodup_singleton v,
            fun a ha b hb heq => hv (by simp_all)⟩
      · intro i hi
        simp only at hi
        rw [hmem]
        by_cases hiv : v = i
        · exact Or.inl hiv.symm
        · exact Or.inr (hwf.active i (by simpa [hiv] using hi))
      · intro i hi
        have hold := hwf.pending i hi
        simp only
        omega
      · intro i hi
        rw [hmem] at hi
        push Not at hi
        exact hwf.inactive i hi.2
      · exact hwf.weight_pos

theorem Step.selectVn_eq {sel : Selection P k} (hstep : Step p (.select sel) p') :
    ∃ lq', p.info.selectVn p.phys = some (sel, lq') := by
  cases hstep with
  | select _ _ hselect => exact ⟨_, hselect⟩

theorem WellFormed.step {e : Event P k} (hwf : p.WellFormed) (hstep : Step p e p') :
    p'.WellFormed := by
  cases hstep with
  | push v color item => exact hwf.push v color item
  | sweep now => exact hwf.sweep now
  | select _ _ hselect => exact hwf.select hselect
  | defer => exact hwf
  | release _ hhead => exact hwf.release _ hhead
  | setVnCapacity v c => exact hwf.setVnCapacity v c
  | setQueueCapacity c =>
      exact hwf.congr rfl (fun _ => rfl) rfl rfl rfl (fun _ => rfl) fun _ => rfl
  | setRate bps =>
      exact hwf.congr rfl (fun _ => rfl) rfl rfl rfl (fun _ => rfl) fun _ => rfl

theorem WellFormed.run {events : List (Event P k)} (hwf : p.WellFormed)
    (hrun : TransitionSystem.Run Step p events p') : p'.WellFormed :=
  hrun.invariant (fun _ _ _ hs hstep => hs.step hstep) hwf

end Port
end Cmcs
