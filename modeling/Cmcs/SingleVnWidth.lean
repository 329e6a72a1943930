import Cmcs.IntScheduler
import Cmcs.SingleVn
import Mathlib.Tactic

/-!
# The single VN on `int` counters

The refinement of the FIFO scheduler says nothing about the width of the counters.
On `int` it holds exactly of the runs which keep the credit of the VN in range and
never replenish a VN whose quantum is too large for `int`: with one VN a round is
the only thing that multiplies, and the loop ends with the first round that leaves
the deficit positive.
-/

namespace Cmcs

open CheckedInt TransitionSystem

variable {P : Type} {m : ℕ}

/-- The largest weight whose quantum fits. -/
def maxWeight : ℤ := 1418417

/-- `select_vn` cannot decide for the queue without a replenishment. -/
def LogicalQueueInfo.NeedsRound (lq : LogicalQueueInfo 1) : Prop :=
  lq.size ≠ 0 ∧ lq.pendingVn = none ∧ (lq.vnQueues onlyVn).greenCredit ≤ 0 ∧
    (lq.vnQueues onlyVn).weightedDeficit ≤ 0

namespace Port

variable [IngressPacket P] {p p' : Port P 1} {e : Event P 1} {now : Ticks}

/-! ## The counters of the VN -/

/-- A deficit is positive only after a round, and then at most one quantum. -/
structure IntState (p : Port P 1) : Prop where
  wellFormed : p.WellFormed
  phys_le : ∀ i, ∀ qe ∈ p.phys i, qe.pktSize ≤ 2 ^ 31 - 1
  credit_lower : 1 - ((2 ^ 31 - 1 : ℕ) : ℤ) ≤ (p.vn onlyVn).greenCredit
  credit_le : (p.vn onlyVn).greenCredit ≤ 2 ^ 31 - 1
  deficit_lower : 1 - ((2 ^ 31 - 1 : ℕ) : ℤ) ≤ (p.vn onlyVn).weightedDeficit
  deficit_le : (p.vn onlyVn).weightedDeficit ≤ (p.vn onlyVn).weight * quantum
  weight_le : 0 < (p.vn onlyVn).weightedDeficit → (p.vn onlyVn).weight ≤ maxWeight

omit [IngressPacket P] in
theorem intState_initial (capacity : ℕ) {weights : Fin 1 → ℤ} (hpos : ∀ i, 0 < weights i)
    (now : Ticks) : IntState (initial capacity weights now : Port P 1) where
  wellFormed := wellFormed_initial capacity hpos now
  phys_le i qe hqe := by simp [initial] at hqe
  credit_lower := by norm_num [initial, Port.vn, LogicalQueueInfo.new]
  credit_le := by norm_num [initial, Port.vn, LogicalQueueInfo.new]
  deficit_lower := by norm_num [initial, Port.vn, LogicalQueueInfo.new]
  deficit_le := (Int.mul_pos (hpos onlyVn) (by decide)).le
  weight_le hdeficit := by simp [initial, Port.vn, LogicalQueueInfo.new] at hdeficit

omit [IngressPacket P] in
theorem vn_size_ne_zero (hwf : p.WellFormed) (hsize : p.info.size ≠ 0) :
    (p.info.vnQueues onlyVn).size ≠ 0 := by
  obtain ⟨v, hv⟩ := exists_nonempty hwf hsize
  rwa [Subsingleton.elim onlyVn v]

omit [IngressPacket P] in
theorem sweep_vnQueues (hwf : p.WellFormed) (hsize : p.info.size ≠ 0) :
    (p.info.sweep now).vnQueues onlyVn = p.info.vnQueues onlyVn := by
  have hstays : onlyVn ∉ p.info.evicted now := fun hevicted =>
    vn_size_ne_zero hwf hsize (p.info.size_eq_zero_of_mem_evicted hevicted)
  simp [LogicalQueueInfo.sweep_eq, hstays]

section Select

variable {sel : Selection P 1} {lq' : LogicalQueueInfo 1}

omit [IngressPacket P] in
theorem needsRound_of_rounds (hwf : p.WellFormed) (hsize : p.info.size ≠ 0)
    (hfree : p.info.pendingVn = none)
    (hselected : (p.info.sweep now).Selected p.phys sel lq') (hrounds : sel.rounds ≠ 0) :
    p.info.NeedsRound := by
  have hphase : sel.phase = .dwrr := by
    cases hcases : sel.phase with
    | green => exact absurd (hselected.green_rounds hcases) hrounds
    | dwrr => rfl
  have hvn : sel.vn = onlyVn := Subsingleton.elim _ _
  have hcredit := hselected.dwrr_credit hphase sel.vn hselected.vn_mem hselected.vn_nonempty
  have hdeficit := hselected.dwrr_waited 0 (Nat.pos_of_ne_zero hrounds) sel.vn
    hselected.vn_mem hselected.vn_nonempty
  rw [hvn, sweep_vnQueues hwf hsize] at hcredit hdeficit
  rw [Nat.cast_zero, mul_zero, add_zero] at hdeficit
  exact ⟨hsize, hfree, hcredit, hdeficit⟩

omit [IngressPacket P] in
/-- On `int` the decision is exact if and only if no round is needed or the quantum
of the VN fits. -/
theorem selectFits_iff (hstate : IntState p) (hsize : p.info.size ≠ 0)
    (hfree : p.info.pendingVn = none)
    (hselect : (p.info.sweep now).selectVn p.phys = some (sel, lq')) :
    (p.info.sweep now).SelectFits sel ↔
      (p.info.NeedsRound → (p.vn onlyVn).weight ≤ maxWeight) := by
  have hwf := hstate.wellFormed
  have hselected :=
    (p.info.sweep now).selectVn_selected (hwf.sweep now).nodup hselect
  have hvn : ∀ i : Fin 1, i = onlyVn := fun i => Subsingleton.elim _ _
  have hsame : (p.info.sweep now).vnQueues onlyVn = p.vn onlyVn := sweep_vnQueues hwf hsize
  have hhead := hstate.phys_le sel.vn sel.head (List.mem_of_head? hselected.head_eq)
  have hquantum : 0 < (p.vn onlyVn).weight * quantum :=
    Int.mul_pos (hwf.weight_pos onlyVn) (by decide)
  constructor
  · intro hfits hneeds
    obtain ⟨-, -, hcredit, hdeficit⟩ := hneeds
    have hphase : sel.phase = .dwrr := by
      cases hcases : sel.phase with
      | green =>
          have hgreen := hselected.green_credit hcases
          rw [hvn sel.vn, hsame] at hgreen
          exact absurd hcredit (not_le.mpr hgreen)
      | dwrr => rfl
    have hrounds : sel.rounds ≠ 0 := by
      intro hzero
      have hpos := hselected.dwrr_deficit hphase
      rw [hvn sel.vn, hsame, hzero, Nat.cast_zero, mul_zero, add_zero] at hpos
      exact absurd hdeficit (not_le.mpr hpos)
    have hproduct := ((hfits.dwrr hphase).rounds 0 le_rfl (Nat.pos_of_ne_zero hrounds) sel.vn
      hselected.vn_mem).1
    rw [hvn sel.vn, hsame, QueueingLogicVN.fits_product_iff (hwf.weight_pos onlyVn)] at hproduct
    exact hproduct
  · intro hweight
    have hneeds := needsRound_of_rounds hwf hsize hfree hselected
    have hproduct : (p.vn onlyVn).weight ≤ maxWeight →
        (p.vn onlyVn).weight * quantum ≤ 2 ^ 31 - 1 := fun hle =>
      (fits_32_iff.mp ((QueueingLogicVN.fits_product_iff (hwf.weight_pos onlyVn)).mpr hle)).2
    -- a round which follows takes the deficit to at most one quantum
    have hround : ∀ r < sel.rounds, (p.vn onlyVn).weightedDeficit +
        (p.vn onlyVn).weight * quantum * ((r + 1 : ℕ) : ℤ) ≤
          (p.vn onlyVn).weight * quantum := by
      intro r hr
      have hphase : sel.phase = .dwrr := by
        cases hcases : sel.phase with
        | green =>
            have hzero := hselected.green_rounds hcases
            omega
        | dwrr => rfl
      have hwaited := hselected.dwrr_waited r hr sel.vn hselected.vn_mem hselected.vn_nonempty
      rw [hvn sel.vn, hsame] at hwaited
      push_cast
      rw [mul_add, mul_one]
      linarith
    constructor
    · intro hgreen
      have hpos := hselected.green_credit hgreen
      have hle := hstate.credit_le
      rw [hvn sel.vn, hsame] at hpos ⊢
      rw [fits_32_iff]
      omega
    · intro hdwrr
      constructor
      · intro n _ hn i hi
        rw [hvn i, hsame]
        have hle := hproduct (hweight (hneeds (by omega)))
        have hupper := hround n hn
        have hlower := hstate.deficit_lower
        have hadded := mul_nonneg hquantum.le (Int.natCast_nonneg (n + 1))
        rw [fits_32_iff, fits_32_iff]
        refine ⟨⟨?_, hle⟩, ?_, hupper.trans hle⟩
        · linarith
        · push_cast at hlower
          linarith
      · have hpos := hselected.dwrr_deficit hdwrr
        rw [hvn sel.vn, hsame] at hpos ⊢
        have hupper : (p.vn onlyVn).weightedDeficit +
            (p.vn onlyVn).weight * quantum * sel.rounds ≤ 2 ^ 31 - 1 := by
          cases hrounds : sel.rounds with
          | zero =>
              rw [hrounds, Nat.cast_zero, mul_zero, add_zero] at hpos
              rw [Nat.cast_zero, mul_zero, add_zero]
              exact hstate.deficit_le.trans (hproduct (hstate.weight_le hpos))
          | succ r =>
              have hle := hproduct (hweight (hneeds (by omega)))
              exact (hround r (by omega)).trans hle
        rw [fits_32_iff]
        omega

end Select

/-! ## Steps of the queue -/

theorem rounds_le (hwf : p.WellFormed) (hstep : Step p e p') (hrounds : e.rounds onlyVn ≠ 0) :
    (p.vn onlyVn).weightedDeficit + (p.vn onlyVn).weight * quantum * e.rounds onlyVn ≤
      (p.vn onlyVn).weight * quantum := by
  cases hstep with
  | @select sel lq' _ _ hselect =>
      have hselected := p.info.selectVn_selected hwf.nodup hselect
      have hvn : sel.vn = onlyVn := Subsingleton.elim _ _
      have hactive : onlyVn ∈ sel.active := by
        rw [hselected.active_eq, ← hvn]
        exact hselected.vn_mem
      have heq : (Event.select sel).rounds onlyVn = sel.rounds := by
        simp [Event.rounds, Selection.roundsOf, roundsFor, hactive]
      rw [heq] at hrounds ⊢
      obtain ⟨r, hr⟩ := Nat.exists_eq_succ_of_ne_zero (Nat.cast_ne_zero.mp hrounds)
      have hwaited := hselected.dwrr_waited r (by omega) sel.vn hselected.vn_mem
        hselected.vn_nonempty
      rw [hvn] at hwaited
      simp only [Port.vn, hr]
      push_cast
      linarith
  | _ => exact absurd rfl hrounds

theorem IntState.step (hstate : IntState p) (hstep : Step p e p')
    (hsize : e.SizeAtMost (2 ^ 31 - 1))
    (hcredit : (p.vn onlyVn).greenCredit + e.greenOffered onlyVn ≤ 2 ^ 31 - 1)
    (hrounds : e.rounds onlyVn ≠ 0 → (p.vn onlyVn).weight ≤ maxWeight) : IntState p' := by
  have hwf := hstate.wellFormed
  have hcharge := e.greenCharge_nonneg onlyVn
  have hspent := e.dwrrCharge_nonneg onlyVn
  have hquantum : 0 < (p.vn onlyVn).weight * quantum :=
    Int.mul_pos (hwf.weight_pos onlyVn) (by decide)
  have hdeficit := weightedDeficit_step hwf hstep onlyVn
  refine
    { wellFormed := hwf.step hstep
      phys_le := phys_le_step hstep hsize hstate.phys_le
      credit_lower := greenCredit_lower_step hwf hstep hstate.phys_le hstate.credit_lower
      credit_le := ?_
      deficit_lower := weightedDeficit_lower_step hwf hstep (by decide) hstate.phys_le
        hstate.deficit_lower
      deficit_le := ?_
      weight_le := ?_ }
  · rw [greenCredit_step hwf hstep]
    linarith
  · rw [hdeficit, weight_step hwf hstep]
    split
    · exact hquantum.le
    · by_cases hzero : e.rounds onlyVn = 0
      · have hbefore := hstate.deficit_le
        rw [hzero, mul_zero]
        linarith
      · have hround := rounds_le hwf hstep hzero
        linarith
  · rw [hdeficit, weight_step hwf hstep]
    intro hpos
    split at hpos
    · exact absurd hpos (lt_irrefl 0)
    · by_cases hzero : e.rounds onlyVn = 0
      · rw [hzero, mul_zero] at hpos
        exact hstate.weight_le (by linarith)
      · exact hrounds hzero

/-- What the scans and the setters make of a queue whose rounds have room. -/
theorem intState_life {weights : Fin 1 → ℤ} {start o : Option (Port P 1)}
    {log : List (Event P 1)} (hpos : ∀ i, 0 < weights i)
    (hstart : ∀ p, start = some p → IntState p ∧ (p.vn onlyVn).weight = weights onlyVn)
    (hoffered : ∀ e ∈ log, e.greenOffered onlyVn = 0)
    (hsize : ∀ e ∈ log, e.SizeAtMost (2 ^ 31 - 1))
    (hrounds : ∀ e ∈ log, e.rounds onlyVn ≠ 0 → weights onlyVn ≤ maxWeight)
    (hrun : Run (Life weights) start log o) :
    ∀ p, o = some p → IntState p ∧ (p.vn onlyVn).weight = weights onlyVn := by
  induction hrun with
  | nil => exact hstart
  | @snoc log o o' e hbefore hstep ih =>
      have hstate := ih (fun e he => hoffered e (by simp [he])) (fun e he => hsize e (by simp [he]))
        fun e he => hrounds e (by simp [he])
      intro p hp
      cases hstep with
      | create capacity now =>
          simp only [Option.some.injEq] at hp
          rw [← hp]
          exact ⟨intState_initial capacity hpos now, rfl⟩
      | @live q q' _ hlive =>
          simp only [Option.some.injEq] at hp
          obtain ⟨hq, hweight⟩ := hstate q rfl
          have hzero := hoffered e (by simp)
          rw [← hp, weight_step hq.wellFormed hlive]
          refine ⟨hq.step hlive (hsize e (by simp)) ?_ ?_, hweight⟩
          · rw [hzero, add_zero]
            exact hq.credit_le
          · rw [hweight]
            exact hrounds e (by simp)

end Port

/-! ## Calls of the scheduler -/

namespace QueueingLogicVN

variable [IngressPacket P] {cfg : Config m 1} {s s' : QueueingLogicVN P m 1} {op : Op P m}

/-- The credit of a green packet, accepted or not, finds room, and the quantum fits
if a scan comes to a queue which needs a round. -/
def SingleFits (cfg : Config m 1) (s : QueueingLogicVN P m 1) : Op P m → Prop
  | .pushFront q _ color item now => color = 0 →
      ((s.getLogicalQueue cfg q (cfg.mapToWorker q) now).2.vnQueues onlyVn).greenCredit +
        ingressSize item ≤ 2 ^ 31 - 1
  | .scan w now => ∀ q lq, Reached now s.logicalQueuesInfo
      ((s.workersInfo w).logicalQueueIds.rotate (s.workersInfo w).workerRrPtr) q →
        s.logicalQueuesInfo q = some lq → lq.NeedsRound → cfg.vnWeights onlyVn ≤ maxWeight
  | _ => True

/-- All queues are in range. -/
structure InRange (cfg : Config m 1) (s : QueueingLogicVN P m 1) : Prop where
  coherent : s.Coherent cfg
  state : ∀ q p, s.port cfg q = some p → p.IntState
  weight : ∀ q p, s.port cfg q = some p → (p.vn onlyVn).weight = cfg.vnWeights onlyVn

omit [IngressPacket P] in
theorem inRange_initial (capacity : ℕ) :
    InRange cfg (initial capacity : QueueingLogicVN P m 1) where
  coherent := coherent_initial capacity
  state := by simp
  weight := by simp

theorem InRange.advances (hrange : InRange cfg s) {log : Log P 1}
    (hadvances : Advances cfg s s' log)
    (hlog : ∀ q, ∀ e ∈ logOf q log, e.greenOffered onlyVn = 0 ∧ e.SizeAtMost (2 ^ 31 - 1) ∧
      (e.rounds onlyVn ≠ 0 → cfg.vnWeights onlyVn ≤ maxWeight)) : InRange cfg s' := by
  have hports : ∀ q p, s'.port cfg q = some p →
      p.IntState ∧ (p.vn onlyVn).weight = cfg.vnWeights onlyVn := fun q =>
    Port.intState_life cfg.vnWeights_pos
      (fun p hp => ⟨hrange.state q p hp, hrange.weight q p hp⟩)
      (fun e he => (hlog q e he).1) (fun e he => (hlog q e he).2.1)
      (fun e he => (hlog q e he).2.2) (hadvances.life q)
  exact ⟨hadvances.coherent, fun q p hp => (hports q p hp).1, fun q p hp => (hports q p hp).2⟩

theorem control_quiet {e : Event P 1} {reading : Option Ticks}
    (hcontrol : e.Control reading) :
    e.greenOffered onlyVn = 0 ∧ e.SizeAtMost (2 ^ 31 - 1) ∧
      (e.rounds onlyVn ≠ 0 → cfg.vnWeights onlyVn ≤ maxWeight) := by
  cases e with
  | push => exact hcontrol.elim
  | select => exact hcontrol.elim
  | _ => exact ⟨rfl, trivial, fun hrounds => absurd rfl hrounds⟩

theorem InRange.getLogicalQueue (hrange : InRange cfg s) (q : ℕ) (now : Ticks) :
    InRange cfg (s.getLogicalQueue cfg q (cfg.mapToWorker q) now).1 := by
  apply hrange.advances (getLogicalQueue_advances hrange.coherent q now).1
  intro q' e he
  exact control_quiet (creation_control q now _ (mem_logOf.mp he))

/-! ## The checks of one call -/

theorem loopFits_iff (hrange : InRange cfg s) (w : Fin m) (now : Ticks) :
    s.IntFits cfg (.scan w now : Op P m) ↔ s.SingleFits cfg (.scan w now : Op P m) := by
  constructor
  · intro hfits q lq hreached hlq hneeds
    obtain ⟨before, after, hsplit, -⟩ := id hreached
    have hmem : q ∈ (s.workersInfo w).logicalQueueIds :=
      List.mem_rotate.mp (by rw [hsplit]; simp)
    obtain rfl := ((hrange.coherent.mem_ids w q).mp hmem).2
    obtain ⟨phys, hport⟩ := exists_port hrange.coherent hlq
    have hstate := hrange.state q _ hport
    have hswept := hstate.wellFormed.sweep now
    have hvn : (((Port.mk lq phys).sweep now).info.vnQueues onlyVn).size ≠ 0 := by
      have hsame : (lq.sweep now).vnQueues onlyVn = lq.vnQueues onlyVn :=
        Port.sweep_vnQueues hstate.wellFormed hneeds.1
      rw [Port.sweep, hsame]
      exact Port.vn_size_ne_zero hstate.wellFormed hneeds.1
    obtain ⟨sel, lq', hselect⟩ := (lq.sweep now).selectVn_isSome hswept.nodup
      hswept.weight_pos (fun i hi => List.ne_nil_of_length_pos (by
        rw [← hswept.size_eq i]
        exact Nat.pos_of_ne_zero hi)) (hswept.active onlyVn hvn) hvn
    have hdecision := hfits q _ hreached hport hneeds.1 hneeds.2.1 sel lq' hselect
    have hle := (Port.selectFits_iff hstate hneeds.1 hneeds.2.1 hselect).mp hdecision hneeds
    rwa [hrange.weight q _ hport] at hle
  · intro hfits q p hreached hport hsize hfree sel lq' hselect
    have hport' := port_of_worker hrange.coherent hport
    obtain ⟨rfl, hport'⟩ := hport'
    refine (Port.selectFits_iff (hrange.state q p hport') hsize hfree hselect).mpr ?_
    intro hneeds
    rw [hrange.weight q p hport']
    exact hfits q p.info hreached (port_eq_some.mp hport').1 hneeds

theorem intFits_iff (hrange : InRange cfg s) (hop : op.VnBelow 1)
    (hsize : op.SizeAtMost (2 ^ 31 - 1)) : s.IntFits cfg op ↔ s.SingleFits cfg op := by
  cases op with
  | pushFront q vn color item now =>
      obtain ⟨-, p, hport, hinfo⟩ := getLogicalQueue_advances hrange.coherent q now
      have hlower := ((hrange.getLogicalQueue q now).state q p hport).credit_lower
      have hle : ingressSize item ≤ 2 ^ 31 - 1 := hsize
      have hv : vnIndex vn = some onlyVn := by
        rw [vnIndex_eq_some]
        have hlt : vn < 1 := hop
        simp only [onlyVn, Fin.last_zero, Fin.val_zero]
        omega
      simp only [Port.vn, hinfo] at hlower
      simp only [IntFits, SingleFits, hv, Option.some.injEq, forall_eq']
      refine imp_congr_right fun _ => ?_
      rw [fits_32_iff]
      omega
  | scan w now => exact loopFits_iff hrange w now
  | _ => exact Iff.rfl

/-! ## Runs -/

theorem InRange.push (hrange : InRange cfg s) {q vn color : ℕ} {item : Option P} {now : Ticks}
    {accepted : Bool} (hsize : ingressSize item ≤ 2 ^ 31 - 1)
    (hfits : s.SingleFits cfg (.pushFront q vn color item now)) {v : Fin 1}
    (hv : vnIndex vn = some v)
    (hpush : s.pushFront cfg q vn color item now = some (s', accepted)) : InRange cfg s' := by
  obtain ⟨hget, p, hport, hinfo⟩ := getLogicalQueue_advances hrange.coherent q now
  have hcreated := hrange.getLogicalQueue q now
  have hcoh := (pushFront_advances hrange.coherent hv hpush).coherent
  have hp := hcreated.state q p hport
  have hstep : Port.Step p (.push v color item (!p.full v)) (p.push v color item) :=
    Port.Step.push p v color item
  obtain rfl : v = onlyVn := Subsingleton.elim _ _
  have hpushed : (p.push onlyVn color item).IntState := by
    refine hp.step hstep hsize ?_ fun hrounds => absurd rfl hrounds
    simp only [Event.greenOffered]
    split
    next hgreen =>
      have hroom := hfits hgreen.1
      rw [← hinfo] at hroom
      exact hroom
    next => simpa using hp.credit_le
  have hweight : ((p.push onlyVn color item).vn onlyVn).weight = cfg.vnWeights onlyVn := by
    rw [Port.weight_step hp.wellFormed hstep]
    exact hcreated.weight q p hport
  rw [pushFront_eq hv hport hinfo, Option.some.injEq, Prod.mk.injEq] at hpush
  obtain ⟨rfl, -⟩ := hpush
  constructor
  · exact hcoh
  · intro q' p' hport'
    rw [port_write] at hport'
    split at hport'
    next => exact Option.some.inj hport' ▸ hpushed
    next => exact hcreated.state q' p' hport'
  · intro q' p' hport'
    rw [port_write] at hport'
    split at hport'
    next => exact Option.some.inj hport' ▸ hweight
    next => exact hcreated.weight q' p' hport'

/-- A decision with rounds is one of a queue to which the scan came and which needed
them. -/
theorem weight_le_of_select (hrange : InRange cfg s) {w : Fin m} {now : Ticks}
    {outcome : ScanOutcome P 1} {log : Log P 1}
    (hscan : s.scan w now = some (s', outcome, log))
    (hfits : s.SingleFits cfg (.scan w now : Op P m)) {q : ℕ} {sel : Selection P 1}
    (hmem : .select sel ∈ logOf q log) (hrounds : sel.rounds ≠ 0) :
    cfg.vnWeights onlyVn ≤ maxWeight := by
  have hwf : ∀ q p, s.port cfg q = some p → p.WellFormed :=
    fun q p hp => (hrange.state q p hp).wellFormed
  obtain ⟨before, after, hsplit⟩ := List.append_of_mem hmem
  obtain ⟨p, lq', hport, hselect, rfl⟩ := select_of_scan hrange.coherent hscan hsplit
  have hlife := (scan_spec hrange.coherent hwf hscan).advances.life q
  rw [hport, hsplit] at hlife
  -- the decision comes right behind the sweep of the queue
  obtain ⟨o, hsweep, hrest⟩ := Run.of_cons hlife
  obtain ⟨o', hselection, -⟩ := Run.of_cons hrest
  cases hsweep with
  | live hlive =>
      cases hlive
      cases hselection with
      | live hlive =>
          cases hlive with
          | select hfree hsize _ =>
              simp only [Port.sweep, LogicalQueueInfo.sweep_eq] at hfree hsize
              have hp := hwf q p hport
              have hselected :=
                (p.info.sweep now).selectVn_selected (hp.sweep now).nodup hselect
              exact hfits q p.info
                (reached_of_scan hrange.coherent hwf hscan (mem_logOf.mp hmem))
                (port_eq_some.mp hport).1
                (Port.needsRound_of_rounds hp hsize hfree hselected hrounds)

theorem InRange.step (hrange : InRange cfg s) {calls : List (Call P m 1)}
    (hsize : op.SizeAtMost (2 ^ 31 - 1)) (hfits : s.SingleFits cfg op)
    (hstep : s.step cfg op = some (s', calls)) : InRange cfg s' := by
  have hwf : ∀ q p, s.port cfg q = some p → p.WellFormed :=
    fun q p hp => (hrange.state q p hp).wellFormed
  obtain ⟨call, rfl, rfl, hadvances, hspec⟩ := step_spec hrange.coherent hwf hstep
  cases hspec with
  | pushFront v hv hpush =>
      exact hrange.push hsize hfits (vnIndex_eq_some.mpr hv) hpush
  | scan hscan =>
      apply hrange.advances hadvances
      intro q e he
      have htime := hscan.scannedAt q e he
      cases e with
      | push => exact htime.elim
      | select sel =>
          refine ⟨rfl, trivial, fun hrounds => ?_⟩
          apply weight_le_of_select hrange (scan_of_step hstep) hfits he
          intro hzero
          apply hrounds
          simp [Event.rounds, Selection.roundsOf, roundsFor, hzero]
      | _ => exact ⟨rfl, trivial, fun hrounds => absurd rfl hrounds⟩
  | setter _ hlog =>
      apply hrange.advances hadvances
      intro q e he
      exact control_quiet (hlog _ (mem_logOf.mp he))

section Runs

variable {capacity : ℕ} {ops : List (Op P m)} {history : List (Call P m 1)}

theorem inRange_run (hsizes : ∀ op ∈ ops, op.SizeAtMost (2 ^ 31 - 1))
    (heach : EachCall cfg capacity (fun s op => s.SingleFits cfg op) ops)
    (hrun : run cfg (initial capacity) ops = some (s, history)) : InRange cfg s := by
  have hcalls : EachCall cfg capacity
      (fun s op => op.SizeAtMost (2 ^ 31 - 1) ∧ s.SingleFits cfg op) ops := by
    intro before op after s history hsplit hbefore
    exact ⟨hsizes op (by simp [hsplit]), heach before op after s history hsplit hbefore⟩
  refine hcalls.invariant (I := InRange cfg) (inRange_initial capacity) ?_ hrun
  intro s op s' calls hrange hcall hstep
  exact hrange.step hcall.1 hcall.2 hstep

theorem eachCall_intFits_iff (hops : ∀ op ∈ ops, op.VnBelow 1)
    (hsizes : ∀ op ∈ ops, op.SizeAtMost (2 ^ 31 - 1)) :
    EachCall cfg capacity (fun s op => s.IntFits cfg op) ops ↔
      EachCall cfg capacity (fun s op => s.SingleFits cfg op) ops := by
  induction ops using List.reverseRecOn with
  | nil =>
      constructor
      · intro _ before op after s history hsplit
        simp at hsplit
      · intro _ before op after s history hsplit
        simp at hsplit
  | append_singleton ops op ih =>
      have hbefore := ih (fun op hop => hops op (by simp [hop]))
        fun op hop => hsizes op (by simp [hop])
      rw [EachCall, EachCall, execEach_concat_iff, execEach_concat_iff]
      rw [EachCall, EachCall] at hbefore
      rw [hbefore]
      refine and_congr_right fun heach => forall₃_congr fun s history hrun => ?_
      exact intFits_iff (inRange_run (fun op hop => hsizes op (by simp [hop])) heach hrun)
        (hops op (by simp)) (hsizes op (by simp))

end Runs

/-- With a single VN the scheduler answers a sequence of calls like the rate-limited
FIFO scheduler, whatever the colors, exactly if the credit stays in range and a round
is needed only for a weight of at most `maxWeight`. -/
theorem single_vn_fifo_iff (cfg : Config m 1) (capacity : ℕ) (ops : List (Op P m))
    (hops : ∀ op ∈ ops, op.VnBelow 1) (hsizes : ∀ op ∈ ops, op.SizeAtMost (2 ^ 31 - 1)) :
    (∃ s history, runInt cfg (initial capacity) ops = some (s, history) ∧
      (RateLimitedFifo.initial capacity).run cfg.mapToWorker (ops.map Op.toFifo) =
        some (s.toFifo cfg, history.map fun call => call.result.toFifo)) ↔
      EachCall cfg capacity (fun s op => s.SingleFits cfg op) ops := by
  rw [← eachCall_intFits_iff hops hsizes]
  constructor
  · intro h
    obtain ⟨s, history, hrun, -⟩ := h
    exact ((runInt_eq_some hsizes).mp hrun).2
  · intro heach
    obtain ⟨s, history, hrun, hfifo⟩ := single_vn_fifo cfg capacity ops hops
    exact ⟨s, history, (runInt_eq_some hsizes).mpr ⟨hrun, heach⟩, hfifo⟩

def twoColorOps : List (Op ℕ 1) :=
  [.pushFront 0 0 0 (some 100) 1, .pushFront 0 0 1 (some 200) 1, .setRate 0 8000 2,
    .scan (Fin.last 0) 3, .scan (Fin.last 0) 4]

theorem single_vn_fifo_iff_two_colors :
    EachCall Config.single 64 (fun s op => s.SingleFits Config.single op) twoColorOps := by
  have hops : ∀ op ∈ twoColorOps, op.VnBelow 1 := by simp [twoColorOps, Op.VnBelow]
  have hsizes : ∀ op ∈ twoColorOps, op.SizeAtMost (2 ^ 31 - 1) := by
    simp [twoColorOps, Op.SizeAtMost, ingressSize, IngressPacket.getIngressLength]
  have hsome : (runInt Config.single (initial 64) twoColorOps).isSome = true := by
    decide +kernel
  obtain ⟨⟨s, history⟩, hrun⟩ := Option.isSome_iff_exists.mp hsome
  obtain ⟨s', history', hexact, hfifo⟩ := single_vn_fifo Config.single 64 twoColorOps hops
  rw [((runInt_eq_some hsizes).mp hrun).1, Option.some.injEq, Prod.mk.injEq] at hexact
  obtain ⟨rfl, rfl⟩ := hexact
  exact (single_vn_fifo_iff Config.single 64 twoColorOps hops hsizes).mp
    ⟨s, history, hrun, hfifo⟩

/-! ## A weight which the command line accepts -/

theorem heavy_pos : (0 : ℤ) < 1073741824 := by
  norm_num

def Config.heavy : Config 1 1 where
  mapToWorker _ := Fin.last 0
  vnWeights _ := 1073741824
  vnWeights_pos _ := heavy_pos

/-- Its quantum is an odd multiple of 2³¹. -/
theorem heavy_rounds_nonpos (n : ℕ) :
    (n * (Config.heavy.vnWeights onlyVn * quantum)).bmod (2 ^ 32) ≤ 0 := by
  have hproduct : Config.heavy.vnWeights onlyVn * quantum = 1073741824 * 1514 := rfl
  rw [hproduct]
  obtain ⟨r, rfl | rfl⟩ := Nat.even_or_odd' n
  · have heven : ((2 * r : ℕ) : ℤ) * (1073741824 * 1514) = ((2 ^ 32 : ℕ) : ℤ) * (757 * r) := by
      push_cast
      ring
    rw [heven, Int.mul_bmod_right]
  · have hodd : ((2 * r + 1 : ℕ) : ℤ) * (1073741824 * 1514) =
        2 ^ 31 + ((2 ^ 32 : ℕ) : ℤ) * (757 * r + 378) := by
      push_cast
      ring
    rw [hodd, Int.add_mul_bmod_self_left]
    decide

/-- One yellow packet with weight 2³⁰: the FIFO scheduler sends it, and the first round
of `select_vn` overflows.  With integers which wrap around no number of rounds leaves the
deficit positive. -/
theorem not_single_vn_fifo :
    parseVnWeights (.success "1073741824".toList) = .ok [Config.heavy.vnWeights onlyVn] ∧
      ((RateLimitedFifo.initial 64).run Config.heavy.mapToWorker
        (yellowOps.map Op.toFifo)).map Prod.snd =
          some [.pushed true, .output 0 (some 1514)] ∧
      runInt Config.heavy (initial 64) yellowOps = none ∧
      (∀ n : ℕ, (n * (Config.heavy.vnWeights onlyVn * quantum)).bmod (2 ^ 32) ≤ 0) ∧
      ¬∃ s history, runInt Config.heavy (initial 64) yellowOps = some (s, history) ∧
        (RateLimitedFifo.initial 64).run Config.heavy.mapToWorker (yellowOps.map Op.toFifo) =
          some (s.toFifo Config.heavy, history.map fun call => call.result.toFifo) := by
  have hint : runInt Config.heavy (initial 64) yellowOps = none := by
    apply Option.isNone_iff_eq_none.mp
    decide +kernel
  refine ⟨by decide +kernel, by decide +kernel, hint, heavy_rounds_nonpos, ?_⟩
  rw [hint]
  simp

end QueueingLogicVN

end Cmcs
