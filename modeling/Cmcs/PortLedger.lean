import Cmcs.PortInvariant
import Mathlib.Tactic

/-!
# Byte ledgers of one logical queue

What the labels of a run add up to: green bytes offered and rejected, bytes
charged in each phase, replenishment rounds, bytes released.  Each counter of a
VN moves by exactly what the label of the step shows, so the counters are sums
over the run.
-/

namespace Cmcs

variable {P : Type} {k : ℕ}

namespace Event

section Offered

variable [IngressPacket P] (i : Fin k)

def greenOffered : Event P k → ℤ
  | .push v color item _ => if color = 0 ∧ v = i then ingressSize item else 0
  | _ => 0

def greenRejected : Event P k → ℤ
  | .push v color item accepted =>
      if color = 0 ∧ v = i ∧ accepted = false then ingressSize item else 0
  | _ => 0

def acceptedBytes : Event P k → ℤ
  | .push v _ item accepted => if v = i ∧ accepted = true then ingressSize item else 0
  | _ => 0

theorem greenOffered_nonneg (e : Event P k) : 0 ≤ e.greenOffered i := by
  cases e with
  | push v color item accepted =>
      simp only [Event.greenOffered]
      split
      · exact Int.natCast_nonneg _
      · exact le_rfl
  | _ => exact le_rfl

theorem greenRejected_nonneg (e : Event P k) : 0 ≤ e.greenRejected i := by
  cases e with
  | push v color item accepted =>
      simp only [Event.greenRejected]
      split
      · exact Int.natCast_nonneg _
      · exact le_rfl
  | _ => exact le_rfl

theorem greenOffered_le (e : Event P k) :
    e.greenOffered i ≤ e.acceptedBytes i + e.greenRejected i := by
  have hsize : ∀ item : Option P, (0 : ℤ) ≤ ingressSize item :=
    fun _ => Int.natCast_nonneg _
  cases e with
  | push v color item accepted =>
      have hitem := hsize item
      simp only [Event.greenOffered, Event.acceptedBytes, Event.greenRejected]
      by_cases hcolor : color = 0 <;> by_cases hv : v = i <;>
        cases accepted <;> simp [hcolor, hv]
  | _ => exact le_rfl

end Offered

variable (i : Fin k)

def greenCharge : Event P k → ℤ
  | .select sel => sel.greenCharge i
  | _ => 0

def dwrrCharge : Event P k → ℤ
  | .select sel => sel.dwrrCharge i
  | _ => 0

def isSelect : Event P k → Bool
  | .select _ => true
  | _ => false

def selectedBytes (e : Event P k) : ℤ := e.greenCharge i + e.dwrrCharge i

def rounds : Event P k → ℤ
  | .select sel => sel.roundsOf i
  | _ => 0

def releasedBytes : Event P k → ℤ
  | .release _ v qe => if v = i then qe.pktSize else 0
  | _ => 0

theorem dwrrCharge_nonneg (e : Event P k) : 0 ≤ e.dwrrCharge i := by
  cases e with
  | select sel =>
      simp only [Event.dwrrCharge, Selection.dwrrCharge]
      split
      · exact Int.natCast_nonneg _
      · exact le_rfl
  | _ => exact le_rfl

theorem greenCharge_nonneg (e : Event P k) : 0 ≤ e.greenCharge i := by
  cases e with
  | select sel =>
      simp only [Event.greenCharge, Selection.greenCharge]
      split
      · exact Int.natCast_nonneg _
      · exact le_rfl
  | _ => exact le_rfl

/-- The sweep erases VN `i` and resets its deficit. -/
def resets : Event P k → Bool
  | .sweep _ evicted => evicted.contains i
  | _ => false

def SizeAtMost [IngressPacket P] (L : ℕ) : Event P k → Prop
  | .push _ _ item _ => ingressSize item ≤ L
  | _ => True

end Event

def tally (f : Event P k → ℤ) (events : List (Event P k)) : ℤ := (events.map f).sum

section Tally

variable (f g : Event P k → ℤ) (events more : List (Event P k)) (e : Event P k)

@[simp] theorem tally_nil : tally f [] = 0 := rfl

@[simp] theorem tally_append : tally f (events ++ more) = tally f events + tally f more := by
  simp [tally]

@[simp] theorem tally_singleton : tally f [e] = f e := by
  simp [tally]

theorem tally_add : tally (fun e => f e + g e) events = tally f events + tally g events := by
  simp [tally]

theorem tally_sub : tally (fun e => f e - g e) events = tally f events - tally g events := by
  induction events with
  | nil => simp
  | cons e rest ih =>
      have hsplit : e :: rest = [e] ++ rest := rfl
      simp only [hsplit, tally_append, tally_singleton, ih]
      ring

theorem tally_sum (h : Fin k → Event P k → ℤ) :
    tally (fun e => ∑ i, h i e) events = ∑ i, tally (h i) events := by
  induction events with
  | nil => simp
  | cons e rest ih =>
      have hsplit : e :: rest = [e] ++ rest := rfl
      simp only [hsplit, tally_append, tally_singleton, ih, Finset.sum_add_distrib]

theorem tally_nonneg (hf : ∀ e, 0 ≤ f e) : 0 ≤ tally f events := by
  apply List.sum_nonneg
  intro x hx
  rcases List.mem_map.mp hx with ⟨e, _, heq⟩
  exact heq ▸ hf e

end Tally

namespace Port

abbrev vn (p : Port P k) (i : Fin k) : VNQueueInfo := p.info.vnQueues i

def queuedBytes (p : Port P k) (i : Fin k) : ℤ := ((p.phys i).map fun qe => (qe.pktSize : ℤ)).sum

/-- Size of the head packet of VN `i` if the pending decision names it. -/
def pendingBytes (p : Port P k) (i : Fin k) : ℤ :=
  if p.info.pendingVn = some i then ((p.phys i).head?.map fun qe => (qe.pktSize : ℤ)).getD 0
  else 0

/-- Bytes of VN `i` which no decision has claimed yet. -/
def unselectedBytes (p : Port P k) (i : Fin k) : ℤ := p.queuedBytes i - p.pendingBytes i

theorem unselectedBytes_nonneg (p : Port P k) (i : Fin k) : 0 ≤ p.unselectedBytes i := by
  unfold unselectedBytes queuedBytes pendingBytes
  have hnonneg : ∀ l : List (QE P), 0 ≤ (l.map fun qe => (qe.pktSize : ℤ)).sum := by
    intro l
    apply List.sum_nonneg
    intro x hx
    rcases List.mem_map.mp hx with ⟨qe, _, heq⟩
    subst x
    exact Int.natCast_nonneg _
  split
  · cases hphys : p.phys i with
    | nil => simp
    | cons head rest =>
        have hrest := hnonneg rest
        simpa using hrest
  · have hall := hnonneg (p.phys i)
    simpa using hall

section StepEquations

variable [IngressPacket P] {p p' : Port P k} {e : Event P k}

theorem push_vn (p : Port P k) (v : Fin k) (color : ℕ) (item : Option P) (i : Fin k) :
    (p.push v color item).vn i =
      { p.vn i with
        size := (p.vn i).size + if p.full v = false ∧ v = i then 1 else 0
        greenCredit := (p.vn i).greenCredit +
          if color = 0 ∧ v = i then (ingressSize item : ℤ) else 0 } := by
  unfold Port.push
  cases hfull : p.full v <;>
    simp [Port.vn, LogicalQueueInfo.accrue_eq, LogicalQueueInfo.accept_eq]

theorem greenCredit_step (hwf : p.WellFormed) (hstep : Step p e p') (i : Fin k) :
    (p'.vn i).greenCredit =
      (p.vn i).greenCredit + (e.greenOffered i - e.greenCharge i) := by
  cases hstep with
  | push v color item =>
      rw [push_vn]
      simp [Event.greenOffered, Event.greenCharge]
  | sweep now => simp [Port.sweep, LogicalQueueInfo.sweep_eq, Event.greenOffered,
      Event.greenCharge]
  | select _ _ hselect =>
      have hspec := p.info.selectVn_selected hwf.nodup hselect
      rw [hspec.result]
      simp [Event.greenOffered, Event.greenCharge]
      ring
  | defer => simp [Event.greenOffered, Event.greenCharge]
  | release => simp [Port.release, LogicalQueueInfo.depart_eq, LogicalQueueInfo.conform,
      Event.greenOffered, Event.greenCharge]
  | setVnCapacity v c =>
      simp only [Port.vn, LogicalQueueInfo.modifyVn_vnQueues]
      split <;> simp [Event.greenOffered, Event.greenCharge]
  | setQueueCapacity c => simp [LogicalQueueInfo.setCapacities, Event.greenOffered,
      Event.greenCharge]
  | setRate bps => simp [Event.greenOffered, Event.greenCharge]

theorem weight_step (hwf : p.WellFormed) (hstep : Step p e p') (i : Fin k) :
    (p'.vn i).weight = (p.vn i).weight := by
  cases hstep with
  | push v color item => rw [push_vn]
  | sweep now => simp [Port.sweep, LogicalQueueInfo.sweep_eq]
  | select _ _ hselect =>
      have hspec := p.info.selectVn_selected hwf.nodup hselect
      rw [hspec.result]
  | defer => rfl
  | release => simp [Port.release, LogicalQueueInfo.depart_eq, LogicalQueueInfo.conform]
  | setVnCapacity v c =>
      simp only [Port.vn, LogicalQueueInfo.modifyVn_vnQueues]
      split <;> rfl
  | setQueueCapacity c => rfl
  | setRate bps => rfl

/-- The deficit law of one step: a sweep which erases VN `i` resets it, a
selection replenishes and charges it, nothing else touches it. -/
theorem weightedDeficit_step (hwf : p.WellFormed) (hstep : Step p e p') (i : Fin k) :
    (p'.vn i).weightedDeficit =
      if e.resets i then 0 else
        (p.vn i).weightedDeficit +
          ((p.vn i).weight * quantum * e.rounds i - e.dwrrCharge i) := by
  cases hstep with
  | push v color item =>
      rw [push_vn]
      simp [Event.resets, Event.rounds, Event.dwrrCharge]
  | sweep now => simp [Port.sweep, LogicalQueueInfo.sweep_eq, Event.resets, Event.rounds,
      Event.dwrrCharge]
  | select _ _ hselect =>
      have hspec := p.info.selectVn_selected hwf.nodup hselect
      rw [hspec.result]
      simp [Event.resets, Event.rounds, Event.dwrrCharge]
      ring
  | defer => simp [Event.resets, Event.rounds, Event.dwrrCharge]
  | release => simp [Port.release, LogicalQueueInfo.depart_eq, LogicalQueueInfo.conform,
      Event.resets, Event.rounds, Event.dwrrCharge]
  | setVnCapacity v c =>
      simp only [Port.vn, LogicalQueueInfo.modifyVn_vnQueues]
      split <;> simp [Event.resets, Event.rounds, Event.dwrrCharge]
  | setQueueCapacity c => simp [LogicalQueueInfo.setCapacities, Event.resets, Event.rounds,
      Event.dwrrCharge]
  | setRate bps => simp [Event.resets, Event.rounds, Event.dwrrCharge]

theorem queuedBytes_step (hstep : Step p e p') (i : Fin k) :
    p'.queuedBytes i = p.queuedBytes i + (e.acceptedBytes i - e.releasedBytes i) := by
  cases hstep with
  | push v color item =>
      unfold Port.push queuedBytes
      cases hfull : p.full v with
      | true => simp [Event.acceptedBytes, Event.releasedBytes]
      | false =>
          by_cases hi : v = i
          · subst i
            simp [Event.acceptedBytes, Event.releasedBytes, Port.element]
          · simp [Event.acceptedBytes, Event.releasedBytes, hi, Ne.symm hi]
  | sweep now => simp [Port.sweep, queuedBytes, Event.acceptedBytes, Event.releasedBytes]
  | select => simp [queuedBytes, Event.acceptedBytes, Event.releasedBytes]
  | defer => simp [Event.acceptedBytes, Event.releasedBytes]
  | @release now v qe _ hhead =>
      rcases List.head?_eq_some_iff.mp hhead with ⟨rest, hphys⟩
      unfold Port.release queuedBytes
      by_cases hi : v = i
      · subst i
        simp [Event.acceptedBytes, Event.releasedBytes, hphys]
      · simp [Event.acceptedBytes, Event.releasedBytes, hi, Ne.symm hi]
  | setVnCapacity => simp [queuedBytes, Event.acceptedBytes, Event.releasedBytes]
  | setQueueCapacity => simp [queuedBytes, Event.acceptedBytes, Event.releasedBytes]
  | setRate => simp [queuedBytes, Event.acceptedBytes, Event.releasedBytes]

theorem phys_le_step {L : ℕ} (hstep : Step p e p') (hsize : e.SizeAtMost L)
    (hphys : ∀ i, ∀ qe ∈ p.phys i, qe.pktSize ≤ L) :
    ∀ i, ∀ qe ∈ p'.phys i, qe.pktSize ≤ L := by
  intro i qe hqe
  cases hstep with
  | push v color item =>
      unfold Port.push at hqe
      cases hfull : p.full v with
      | true =>
          simp only [hfull, if_true] at hqe
          exact hphys i qe hqe
      | false =>
          simp only [hfull, Bool.false_eq_true, if_false] at hqe
          by_cases hi : i = v
          · subst i
            simp only [Function.update_self, List.mem_append, List.mem_singleton] at hqe
            cases hqe with
            | inl hold => exact hphys v qe hold
            | inr hnew =>
                subst qe
                exact hsize
          · rw [Function.update_of_ne hi] at hqe
            exact hphys i qe hqe
  | @release now v head _ hhead =>
      by_cases hi : i = v
      · subst i
        simp only [Port.release, Function.update_self] at hqe
        exact hphys v qe (List.mem_of_mem_tail hqe)
      · simp only [Port.release, Function.update_of_ne hi] at hqe
        exact hphys i qe hqe
  | _ => exact hphys i qe hqe

omit [IngressPacket P] in
theorem selectedBytes_select (sel : Selection P k) (i : Fin k) :
    (Event.select sel).selectedBytes i = if sel.vn = i then (sel.head.pktSize : ℤ) else 0 := by
  unfold Event.selectedBytes Event.greenCharge Event.dwrrCharge
  unfold Selection.greenCharge Selection.dwrrCharge
  cases hphase : sel.phase <;> simp [hphase]

theorem push_head (p : Port P k) (v : Fin k) (color : ℕ) (item : Option P) {i : Fin k}
    (hne : p.phys i ≠ []) : ((p.push v color item).phys i).head? = (p.phys i).head? := by
  unfold Port.push
  cases hfull : p.full v with
  | true => rfl
  | false =>
      by_cases hi : i = v
      · subst i
        simp [List.head?_append_of_ne_nil _ hne]
      · simp [hi]

omit [IngressPacket P] in
theorem WellFormed.pending_ne_nil (hwf : p.WellFormed) {v : Fin k}
    (hpending : p.info.pendingVn = some v) : p.phys v ≠ [] := by
  intro hnil
  apply hwf.pending v hpending
  rw [hwf.size_eq, hnil]
  rfl

theorem push_pendingVn (p : Port P k) (v : Fin k) (color : ℕ) (item : Option P) :
    (p.push v color item).info.pendingVn = p.info.pendingVn := by
  unfold Port.push
  cases hfull : p.full v <;>
    simp [LogicalQueueInfo.accrue_eq, LogicalQueueInfo.accept_eq]

theorem pendingBytes_step (hwf : p.WellFormed) (hstep : Step p e p') (i : Fin k) :
    p'.pendingBytes i = p.pendingBytes i + (e.selectedBytes i - e.releasedBytes i) := by
  cases hstep with
  | push v color item =>
      have hzero : (Event.push v color item (!p.full v)).selectedBytes i = 0 := rfl
      rw [hzero]
      unfold pendingBytes
      rw [push_pendingVn]
      split
      next hpending =>
        rw [push_head _ _ _ _ (hwf.pending_ne_nil hpending)]
        simp [Event.releasedBytes]
      next => simp [Event.releasedBytes]
  | sweep now =>
      simp [Port.sweep, LogicalQueueInfo.sweep_eq, pendingBytes, Event.selectedBytes,
        Event.greenCharge, Event.dwrrCharge, Event.releasedBytes]
  | @select sel lq' hfree _ hselect =>
      have hspec := p.info.selectVn_selected hwf.nodup hselect
      rw [selectedBytes_select]
      unfold pendingBytes
      rw [hfree]
      by_cases hi : sel.vn = i
      · subst i
        simp [hspec.head_eq, Event.releasedBytes]
      · simp [hi, Event.releasedBytes]
  | defer => simp [Event.selectedBytes, Event.greenCharge, Event.dwrrCharge,
      Event.releasedBytes]
  | @release now v qe hpending hhead =>
      unfold pendingBytes
      rw [hpending]
      by_cases hi : v = i
      · subst i
        simp [hhead, Port.release, LogicalQueueInfo.depart_eq, LogicalQueueInfo.conform,
          Event.selectedBytes, Event.greenCharge, Event.dwrrCharge, Event.releasedBytes]
      · simp [hi, Port.release, LogicalQueueInfo.depart_eq, LogicalQueueInfo.conform,
          Event.selectedBytes, Event.greenCharge, Event.dwrrCharge, Event.releasedBytes]
  | setVnCapacity => exact (add_zero _).symm
  | setQueueCapacity => exact (add_zero _).symm
  | setRate => exact (add_zero _).symm

theorem unselectedBytes_step (hwf : p.WellFormed) (hstep : Step p e p') (i : Fin k) :
    p'.unselectedBytes i =
      p.unselectedBytes i + (e.acceptedBytes i - e.selectedBytes i) := by
  unfold unselectedBytes
  rw [queuedBytes_step hstep, pendingBytes_step hwf hstep]
  ring

/-! ## The counters as sums over a run -/

variable {events : List (Event P k)}

private theorem account_wellFormed (hwf : p.WellFormed)
    (hrun : TransitionSystem.Run Step p events p') (value : Port P k → ℤ)
    (change : Event P k → ℤ)
    (hstep : ∀ q e q', q.WellFormed → Step q e q' → value q' = value q + change e) :
    value p' = value p + tally change events :=
  (hrun.strengthen (fun _ _ _ hs hst => WellFormed.step hs hst) hwf).account
    fun q e q' h => hstep q e q' h.1 h.2

theorem greenCredit_run (hwf : p.WellFormed)
    (hrun : TransitionSystem.Run Step p events p') (i : Fin k) :
    (p'.vn i).greenCredit = (p.vn i).greenCredit +
      (tally (Event.greenOffered i) events - tally (Event.greenCharge i) events) := by
  have hsum := account_wellFormed hwf hrun _ _
    fun q e q' hq hst => greenCredit_step hq hst i
  rw [hsum, tally_sub]

theorem weight_run (hwf : p.WellFormed)
    (hrun : TransitionSystem.Run Step p events p') (i : Fin k) :
    (p'.vn i).weight = (p.vn i).weight := by
  have hsum := account_wellFormed hwf hrun (fun q => (q.vn i).weight) (fun _ => 0)
    fun q e q' hq hst => by simpa using weight_step hq hst i
  simpa [tally] using hsum

theorem pendingBytes_run (hwf : p.WellFormed)
    (hrun : TransitionSystem.Run Step p events p') (i : Fin k) :
    p'.pendingBytes i = p.pendingBytes i +
      (tally (Event.selectedBytes i) events - tally (Event.releasedBytes i) events) := by
  have hsum := account_wellFormed hwf hrun _ _
    fun q e q' hq hst => pendingBytes_step hq hst i
  rw [hsum, tally_sub]

end StepEquations

end Port

end Cmcs
