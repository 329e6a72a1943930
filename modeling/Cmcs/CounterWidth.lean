import Cmcs.CounterArithmetic
import Cmcs.DeficitBound
import Cmcs.VnWeightsOption
import Mathlib.Tactic

/-!
# When the counters stay in range

Lower bounds come from the surplus semantics, since a counter is positive before
it is charged.  There is no such bound from above: credit grows with every green
packet, also with one which a full queue rejects, and the deficit of an empty
member of the active set grows with every round.  The room which the state
before a call has to leave is enough, and needed.
-/

namespace Cmcs

open CheckedInt TransitionSystem

variable {P : Type} {m k : ℕ}

namespace LogicalQueueInfo

variable (lq : LogicalQueueInfo k)

/-! ## What has to hold -/

structure CountersFit : Prop where
  greenCredit : ∀ i, Fits 32 (lq.vnQueues i).greenCredit
  weightedDeficit : ∀ i, Fits 32 (lq.vnQueues i).weightedDeficit
  product : ∀ i, Fits 32 ((lq.vnQueues i).weight * quantum)

/-- If Phase 2 is reached and `r` rounds leave no VN with packets a positive
deficit, then each empty member of the active set has room for one more. -/
def RoundsHaveRoom : Prop :=
  (∀ i ∈ lq.activeSet, (lq.vnQueues i).size ≠ 0 → (lq.vnQueues i).greenCredit ≤ 0) →
    ∀ r : ℕ, (∀ i ∈ lq.activeSet, (lq.vnQueues i).size ≠ 0 →
      (lq.vnQueues i).weightedDeficit + (lq.vnQueues i).weight * quantum * r ≤ 0) →
        ∀ i ∈ lq.activeSet, (lq.vnQueues i).size = 0 →
          (lq.vnQueues i).weightedDeficit + (lq.vnQueues i).weight * quantum * (r + 1) ≤
            2 ^ 31 - 1

end LogicalQueueInfo

section Events

variable [IngressPacket P]

/-- The counters have room for the event in the state before it. -/
def Event.HasRoom (p : Port P k) : Event P k → Prop
  | .push v color item _ =>
      color = 0 → (p.info.vnQueues v).greenCredit + ingressSize item ≤ 2 ^ 31 - 1
  | .select _ => p.info.RoundsHaveRoom
  | _ => True

end Events

namespace Port

variable [IngressPacket P] {p p' : Port P k} {e : Event P k}

/-! ## One event -/

structure CounterState (p : Port P k) : Prop where
  wellFormed : p.WellFormed
  phys_le : ∀ i, ∀ qe ∈ p.phys i, qe.pktSize ≤ 65535
  credit_lower : ∀ i, 1 - (65535 : ℤ) ≤ (p.vn i).greenCredit
  deficit_lower : ∀ i, 1 - (65535 : ℤ) ≤ (p.vn i).weightedDeficit
  fits : p.info.CountersFit

omit [IngressPacket P] in
/-- A VN with packets has room for a round, because its deficit was not positive
before it. -/
theorem round_le (hstate : CounterState p) {sel : Selection P k} {lq' : LogicalQueueInfo k}
    (hselected : p.info.Selected p.phys sel lq') (hroom : p.info.RoundsHaveRoom) {r : ℕ}
    (hr : r < sel.rounds) {i : Fin k} (hi : i ∈ p.info.activeSet) :
    (p.vn i).weightedDeficit + (p.vn i).weight * quantum * ((r + 1 : ℕ) : ℤ) ≤
      2 ^ 31 - 1 := by
  have hphase : sel.phase = .dwrr := by
    cases hcases : sel.phase with
    | green =>
        have hzero := hselected.green_rounds hcases
        omega
    | dwrr => rfl
  have hwaited := hselected.dwrr_waited r hr
  push_cast
  by_cases hempty : (p.vn i).size = 0
  · exact hroom (hselected.dwrr_credit hphase) r hwaited i hi hempty
  · have hbefore := hwaited i hi hempty
    have hproduct := (fits_32_iff.mp (hstate.fits.product i)).2
    simp only [Port.vn] at hbefore hproduct ⊢
    rw [mul_add, mul_one]
    omega

omit [IngressPacket P] in
theorem selectFits_of_room (hstate : CounterState p) {sel : Selection P k}
    {lq' : LogicalQueueInfo k} (hselect : p.info.selectVn p.phys = some (sel, lq'))
    (hroom : p.info.RoundsHaveRoom) : p.info.SelectFits sel := by
  have hselected := p.info.selectVn_selected hstate.wellFormed.nodup hselect
  have hhead := hstate.phys_le sel.vn sel.head (List.mem_of_head? hselected.head_eq)
  have hproduct : ∀ i, 0 ≤ (p.vn i).weight * quantum := fun i =>
    (Int.mul_pos (hstate.wellFormed.weight_pos i) (by decide)).le
  constructor
  · intro hgreen
    have hpos := hselected.green_credit hgreen
    have hupper := (fits_32_iff.mp (hstate.fits.greenCredit sel.vn)).2
    rw [fits_32_iff]
    omega
  · intro hdwrr
    constructor
    · intro n _ hn i hi
      refine ⟨hstate.fits.product i, fits_32_iff.mpr ⟨?_, round_le hstate hselected hroom hn hi⟩⟩
      have hlower := hstate.deficit_lower i
      have hadded := mul_nonneg (hproduct i) (Int.natCast_nonneg (n + 1))
      simp only [Port.vn] at hlower hadded
      omega
    · have hpos := hselected.dwrr_deficit hdwrr
      have hupper : (p.vn sel.vn).weightedDeficit +
          (p.vn sel.vn).weight * quantum * sel.rounds ≤ 2 ^ 31 - 1 := by
        cases hrounds : sel.rounds with
        | zero =>
            rw [Nat.cast_zero, mul_zero, add_zero]
            exact (fits_32_iff.mp (hstate.fits.weightedDeficit sel.vn)).2
        | succ r => exact round_le hstate hselected hroom (by omega) hselected.vn_mem
      simp only [Port.vn] at hupper
      rw [fits_32_iff]
      omega

omit [IngressPacket P] in
theorem room_of_selectFits (hwf : p.WellFormed) {sel : Selection P k}
    {lq' : LogicalQueueInfo k} (hselect : p.info.selectVn p.phys = some (sel, lq'))
    (hfits : p.info.SelectFits sel) : p.info.RoundsHaveRoom := by
  have hselected := p.info.selectVn_selected hwf.nodup hselect
  intro hcredit r hwaited i hi _
  have hphase : sel.phase = .dwrr := by
    cases hcases : sel.phase with
    | green =>
        have hpos := hselected.green_credit hcases
        have hle := hcredit sel.vn hselected.vn_mem hselected.vn_nonempty
        omega
    | dwrr => rfl
  -- the served VN is not positive after `r` rounds, so there is another
  have hr : r < sel.rounds := by
    have hpos := hselected.dwrr_deficit hphase
    have hle := hwaited sel.vn hselected.vn_mem hselected.vn_nonempty
    have hproduct : 0 < (p.vn sel.vn).weight * quantum :=
      Int.mul_pos (hwf.weight_pos sel.vn) (by decide)
    by_contra hge
    have hmono := mul_le_mul_of_nonneg_left
      (Int.ofNat_le.mpr (Nat.not_lt.mp hge)) hproduct.le
    simp only [Port.vn] at hmono
    omega
  have hround := (fits_32_iff.mp ((hfits.dwrr hphase).rounds r (Nat.zero_le r) hr i hi).2).2
  push_cast at hround
  exact hround

omit [IngressPacket P] in
theorem selectVnInt_iff (hwf : p.WellFormed) (hphys : ∀ i, ∀ qe ∈ p.phys i, qe.pktSize ≤ 65535)
    {sel : Selection P k} {lq' : LogicalQueueInfo k}
    (hselect : p.info.selectVn p.phys = some (sel, lq')) :
    p.info.selectVnInt p.phys = p.info.selectVn p.phys ↔ p.info.SelectFits sel := by
  rw [hselect, p.info.selectVnInt_eq_some hwf.nodup fun i qe hqe => fits_size (hphys i qe hqe)]
  exact and_iff_right hselect

theorem greenCredit_upper_step (hstate : CounterState p) (hstep : Step p e p')
    (hroom : e.HasRoom p) (i : Fin k) : (p'.vn i).greenCredit ≤ 2 ^ 31 - 1 := by
  have hbefore := (fits_32_iff.mp (hstate.fits.greenCredit i)).2
  have hcharge := e.greenCharge_nonneg i
  have hcredit := greenCredit_step hstate.wellFormed hstep i
  have hoffered : (p.vn i).greenCredit + e.greenOffered i ≤ 2 ^ 31 - 1 := by
    cases e with
    | push v color item accepted =>
        simp only [Event.greenOffered]
        split
        next h =>
          obtain ⟨hcolor, rfl⟩ := h
          exact hroom hcolor
        next => simpa using hbefore
    | _ => simpa [Event.greenOffered] using hbefore
  omega

theorem weightedDeficit_upper_step (hstate : CounterState p) (hstep : Step p e p')
    (hroom : e.HasRoom p) (i : Fin k) : (p'.vn i).weightedDeficit ≤ 2 ^ 31 - 1 := by
  have hbefore := (fits_32_iff.mp (hstate.fits.weightedDeficit i)).2
  have hcharge := e.dwrrCharge_nonneg i
  have hrounds : (p.vn i).weightedDeficit + (p.vn i).weight * quantum * e.rounds i ≤
      2 ^ 31 - 1 := by
    cases hstep with
    | @select sel lq' _ _ hselect =>
        have hselected := p.info.selectVn_selected hstate.wellFormed.nodup hselect
        simp only [Event.rounds, Selection.roundsOf, roundsFor, hselected.active_eq]
        split
        next hi =>
          cases hcases : sel.rounds with
          | zero => simpa using hbefore
          | succ r => exact round_le hstate hselected hroom (by omega) hi
        next => simpa using hbefore
    | _ => simpa [Event.rounds] using hbefore
  rw [weightedDeficit_step hstate.wellFormed hstep]
  split
  · norm_num
  · omega

theorem CounterState.step (hstate : CounterState p) (hstep : Step p e p')
    (hsize : e.SizeAtMost 65535) (hroom : e.HasRoom p) : CounterState p' := by
  have hcredit := fun i => greenCredit_lower_step hstate.wellFormed hstep hstate.phys_le
    (hstate.credit_lower i)
  have hdeficit := fun i => weightedDeficit_lower_step hstate.wellFormed hstep (by decide)
    hstate.phys_le (hstate.deficit_lower i)
  refine
    { wellFormed := hstate.wellFormed.step hstep
      phys_le := phys_le_step hstep hsize hstate.phys_le
      credit_lower := hcredit
      deficit_lower := hdeficit
      fits := ⟨?_, ?_, ?_⟩ }
  · intro i
    have hlower := hcredit i
    simp only [Port.vn, Nat.cast_ofNat] at hlower
    exact fits_32_iff.mpr ⟨by omega, greenCredit_upper_step hstate hstep hroom i⟩
  · intro i
    have hlower := hdeficit i
    simp only [Port.vn, Nat.cast_ofNat] at hlower
    exact fits_32_iff.mpr ⟨by omega, weightedDeficit_upper_step hstate hstep hroom i⟩
  · intro i
    have hweight := weight_step hstate.wellFormed hstep i
    simp only [Port.vn] at hweight
    rw [hweight]
    exact hstate.fits.product i

omit [IngressPacket P] in
theorem counterState_initial (capacity : ℕ) {weights : Fin k → ℤ} (hpos : ∀ i, 0 < weights i)
    (hproduct : ∀ i, Fits 32 (weights i * quantum)) (now : Ticks) :
    CounterState (initial capacity weights now : Port P k) where
  wellFormed := wellFormed_initial capacity hpos now
  phys_le i qe hqe := by simp [initial] at hqe
  credit_lower i := by norm_num [initial, LogicalQueueInfo.new]
  deficit_lower i := by norm_num [initial, LogicalQueueInfo.new]
  fits :=
    { greenCredit := fun i => by norm_num [initial, LogicalQueueInfo.new, fits_32_iff]
      weightedDeficit := fun i => by norm_num [initial, LogicalQueueInfo.new, fits_32_iff]
      product := hproduct }

/-! ## Lives of a queue -/

section Life

variable {weights : Fin k → ℤ} {start o : Option (Port P k)} {log : List (Event P k)}

theorem counterState_life (hpos : ∀ i, 0 < weights i)
    (hproduct : ∀ i, Fits 32 (weights i * quantum))
    (hstart : ∀ p, start = some p → CounterState p) (hsize : ∀ e ∈ log, e.SizeAtMost 65535)
    (hroom : ∀ before e after p, log = before ++ e :: after →
      Run (Life weights) start before (some p) → e.HasRoom p)
    (hrun : Run (Life weights) start log o) : ∀ p, o = some p → CounterState p := by
  induction hrun with
  | nil => exact hstart
  | @snoc log o o' e hbefore hstep ih =>
      have hstate := ih (fun e he => hsize e (by simp [he])) fun before e' after p hsplit =>
        hroom before e' (after ++ [e]) p (by simp [hsplit])
      intro p hp
      cases hstep with
      | create capacity now =>
          simp only [Option.some.injEq] at hp
          rw [← hp]
          exact counterState_initial capacity hpos hproduct now
      | @live q q' _ hlive =>
          simp only [Option.some.injEq] at hp
          rw [← hp]
          exact (hstate q rfl).step hlive (hsize _ (by simp)) (hroom log e [] q rfl hbefore)

end Life

end Port

/-! ## Where a scan calls `select_vn` -/

/-- The events of a visit: the sweep and the decision, unless one is pending,
and then the deferral or the release. -/
theorem LogicalQueueInfo.visit_events {lq : LogicalQueueInfo k} {now : Ticks}
    {phys : Fin k → List (QE P)} {visit : Visit P k} (hvisit : lq.visit now phys = some visit) :
    ∃ decided last, visit.events = decided ++ [last] ∧ (∀ sel, last ≠ .select sel) ∧
      (visit.served = none → visit.queue.pendingVn ≠ none) ∧
      (decided = [] ∨ lq.pendingVn = none ∧ ∃ sel lq',
        (lq.sweep now).selectVn phys = some (sel, lq') ∧
          decided = [.sweep now (lq.evicted now), .select sel]) := by
  unfold LogicalQueueInfo.visit at hvisit
  obtain ⟨⟨v, lq', events⟩, hdecision, hrest⟩ := Option.bind_eq_some_iff.mp hvisit
  obtain ⟨head, -, houtcome⟩ := Option.bind_eq_some_iff.mp hrest
  have hdecided : lq'.pendingVn ≠ none ∧
      (events = [] ∨ lq.pendingVn = none ∧ ∃ sel lq'',
        (lq.sweep now).selectVn phys = some (sel, lq'') ∧
          events = [.sweep now (lq.evicted now), .select sel]) := by
    unfold LogicalQueueInfo.decision at hdecision
    cases hpending : lq.pendingVn with
    | some sel =>
        simp only [hpending, Option.some.injEq, Prod.mk.injEq] at hdecision
        obtain ⟨rfl, rfl, rfl⟩ := hdecision
        exact ⟨by simp [hpending], Or.inl rfl⟩
    | none =>
        simp only [hpending] at hdecision
        obtain ⟨⟨sel, lq''⟩, hselect, heq⟩ := Option.bind_eq_some_iff.mp hdecision
        simp only [Option.some.injEq, Prod.mk.injEq] at heq
        obtain ⟨rfl, rfl, rfl⟩ := heq
        exact ⟨by simp, Or.inr ⟨rfl, sel, lq'', hselect, rfl⟩⟩
  split at houtcome
  next =>
    simp only [Option.some.injEq] at houtcome
    rw [← houtcome]
    exact ⟨events, .defer now, rfl, by simp, fun _ => hdecided.1, hdecided.2⟩
  next =>
    simp only [Option.some.injEq] at houtcome
    rw [← houtcome]
    exact ⟨events, .release now v head, rfl, by simp, by simp, hdecided.2⟩

theorem cons_ne_select {last : Event P k} {rest before after : List (Event P k)}
    {sel : Selection P k} (hlast : ∀ sel, last ≠ .select sel)
    (hrest : ∀ before after, rest ≠ before ++ .select sel :: after) :
    last :: rest ≠ before ++ .select sel :: after := by
  intro hsplit
  obtain ⟨-, heq⟩ | ⟨before, -, hlater⟩ := List.cons_eq_append_iff.mp hsplit
  · exact hlast sel (List.cons.inj heq).1.symm
  · exact hrest before after hlater

theorem LogicalQueueInfo.select_of_visit {lq : LogicalQueueInfo k} {now : Ticks}
    {phys : Fin k → List (QE P)} {visit : Visit P k} (hvisit : lq.visit now phys = some visit)
    {rest before after : List (Event P k)} {sel : Selection P k}
    (hrest : ∀ before after, rest ≠ before ++ .select sel :: after)
    (hsplit : visit.events ++ rest = before ++ .select sel :: after) :
    lq.pendingVn = none ∧ (∃ lq', (lq.sweep now).selectVn phys = some (sel, lq')) ∧
      before = [.sweep now (lq.evicted now)] := by
  obtain ⟨decided, last, hevents, hlast, -, hdecided⟩ := LogicalQueueInfo.visit_events hvisit
  rw [hevents] at hsplit
  have hno : ∀ before, last :: rest ≠ before ++ .select sel :: after :=
    fun _ => cons_ne_select hlast hrest
  rcases hdecided with rfl | ⟨hpending, sel', lq', hselect, rfl⟩
  · exact absurd hsplit (hno before)
  · simp only [List.cons_append, List.nil_append] at hsplit
    obtain ⟨-, heq⟩ | ⟨before', rfl, hrest'⟩ := List.cons_eq_append_iff.mp hsplit
    · simp at heq
    obtain ⟨rfl, heq⟩ | ⟨before, -, hlater⟩ := List.cons_eq_append_iff.mp hrest'
    · simp only [List.cons.injEq, Event.select.injEq] at heq
      rw [heq.1]
      exact ⟨hpending, ⟨lq', hselect⟩, rfl⟩
    · exact absurd hlater (hno before)

namespace WorkerInfo

variable {wInfo : WorkerInfo P k} {now : Ticks}

/-- A queue on which a scan calls `select_vn` has no pending decision, and the
call comes right after the sweep. -/
theorem select_of_scanLoop {cs : List ℕ} {queues : ℕ → Option (LogicalQueueInfo k)}
    {scanned : ScanState P k} (hscan : wInfo.scanLoop now cs queues = some scanned) {q : ℕ}
    {before after : List (Event P k)} {sel : Selection P k}
    (hlog : logOf q scanned.log = before ++ .select sel :: after) :
    ∃ p lq', wInfo.port queues q = some p ∧ p.info.pendingVn = none ∧
      (p.info.sweep now).selectVn p.phys = some (sel, lq') ∧
      before = [.sweep now (p.info.evicted now)] := by
  induction cs generalizing queues scanned before after with
  | nil =>
      simp only [scanLoop, Option.some.injEq] at hscan
      rw [← hscan] at hlog
      simp at hlog
  | cons c cs ih =>
      cases wInfo.scanLoop_cons now hscan with
      | empty _ _ _ hloop => exact ih hloop hlog
      | @served qid p visit v _ hport _ hvisit _ =>
          rw [logOf_map] at hlog
          split at hlog
          next heq =>
            subst qid
            rw [← List.append_nil visit.events] at hlog
            obtain ⟨hpending, ⟨lq', hselect⟩, hbefore⟩ :=
              LogicalQueueInfo.select_of_visit hvisit (by simp) hlog
            exact ⟨p, lq', hport, hpending, hselect, hbefore⟩
          next => simp at hlog
      | @deferred qid p visit rest _ hport _ hvisit hserved hloop =>
          rw [logOf_append, logOf_map] at hlog
          split at hlog
          next heq =>
            subst qid
            -- after a deferral the decision is pending
            have hpending : visit.queue.pendingVn ≠ none := by
              obtain ⟨_, _, _, _, hpending, _⟩ := LogicalQueueInfo.visit_events hvisit
              exact hpending hserved
            have hlater : ∀ before after,
                logOf q rest.log ≠ before ++ .select sel :: after := by
              intro before after hsplit
              obtain ⟨p', _, hp, hfree, -⟩ := ih hloop hsplit
              rw [port_update, if_pos rfl, (wInfo.port_eq_some.mp hport).2, Option.map_some,
                Option.some.injEq] at hp
              rw [← hp] at hfree
              exact hpending hfree
            obtain ⟨hpending, ⟨lq', hselect⟩, hbefore⟩ :=
              LogicalQueueInfo.select_of_visit hvisit hlater hlog
            exact ⟨p, lq', hport, hpending, hselect, hbefore⟩
          next hne =>
            rw [List.nil_append] at hlog
            obtain ⟨p', lq', hp, hrest⟩ := ih hloop hlog
            rw [port_update, if_neg (Ne.symm hne)] at hp
            exact ⟨p', lq', hp, hrest⟩

end WorkerInfo

/-! ## Calls of the scheduler -/

namespace QueueingLogicVN

variable [IngressPacket P] {cfg : Config m k} {s s' : QueueingLogicVN P m k} {op : Op P m}
variable {calls : List (Call P m k)} {q : ℕ}

omit [IngressPacket P] in
theorem select_of_scan (hcoh : s.Coherent cfg) {w : Fin m} {now : Ticks}
    {outcome : ScanOutcome P k} {log : Log P k} (hscan : s.scan w now = some (s', outcome, log))
    {before after : List (Event P k)} {sel : Selection P k}
    (hlog : logOf q log = before ++ .select sel :: after) :
    ∃ p lq', s.port cfg q = some p ∧ (p.info.sweep now).selectVn p.phys = some (sel, lq') ∧
      before = [.sweep now (p.info.evicted now)] := by
  cases scan_cases hscan with
  | idle => simp at hlog
  | waited _ hloop _ =>
      obtain ⟨p, lq', hp, -, hselect, hbefore⟩ := WorkerInfo.select_of_scanLoop hloop hlog
      exact ⟨p, lq', (port_of_worker hcoh hp).2, hselect, hbefore⟩
  | output _ hloop _ _ _ =>
      obtain ⟨p, lq', hp, -, hselect, hbefore⟩ := WorkerInfo.select_of_scanLoop hloop hlog
      exact ⟨p, lq', (port_of_worker hcoh hp).2, hselect, hbefore⟩

omit [IngressPacket P] in
theorem selectVn_of_mem (hcoh : s.Coherent cfg) {w : Fin m} {now : Ticks}
    {outcome : ScanOutcome P k} {log : Log P k} (hscan : s.scan w now = some (s', outcome, log))
    {sel : Selection P k} (hmem : (q, .select sel) ∈ log) {p : Port P k}
    (hport : s.port cfg q = some p) :
    ∃ lq', (p.info.sweep now).selectVn p.phys = some (sel, lq') := by
  obtain ⟨before, after, hlog⟩ := List.append_of_mem (mem_logOf.mpr hmem)
  obtain ⟨p', lq', hport', hselect, -⟩ := select_of_scan hcoh hscan hlog
  rw [hport, Option.some.injEq] at hport'
  exact ⟨lq', hport' ▸ hselect⟩

def CountersFit (s : QueueingLogicVN P m k) : Prop :=
  ∀ q lq, s.logicalQueuesInfo q = some lq → lq.CountersFit

/-- The `int` arithmetic of `push_front`, and of each `select_vn` which a scan
calls, is exact. -/
def Exact (cfg : Config m k) (s : QueueingLogicVN P m k) : Op P m → Prop
  | .pushFront q vn color item now => ∀ v, vnIndex vn = some v →
      let lq := (s.getLogicalQueue cfg q (cfg.mapToWorker q) now).2
      lq.accrueInt v color (ingressSize item) = some (lq.accrue v color (ingressSize item))
  | .scan w now => ∀ s' outcome log, s.scan w now = some (s', outcome, log) →
      ∀ q p sel, (q, .select sel) ∈ log → s.port cfg q = some p →
        (p.info.sweep now).selectVnInt p.phys = (p.info.sweep now).selectVn p.phys
  | _ => True

/-- A green packet, accepted or not, finds room for its credit, and each call of
`select_vn` finds room for its rounds. -/
def HasRoom (cfg : Config m k) (s : QueueingLogicVN P m k) : Op P m → Prop
  | .pushFront q vn color item _ => color = 0 → ∀ v lq, vnIndex vn = some v →
      s.logicalQueuesInfo q = some lq →
        (lq.vnQueues v).greenCredit + ingressSize item ≤ 2 ^ 31 - 1
  | .scan w now => ∀ s' outcome log, s.scan w now = some (s', outcome, log) →
      ∀ q p sel, (q, .select sel) ∈ log → s.port cfg q = some p →
        (p.info.sweep now).RoundsHaveRoom
  | _ => True

theorem push_hasRoom (hcoh : s.Coherent cfg) {vn color : ℕ} {item : Option P} {now : Ticks}
    (hsize : (Op.pushFront q vn color item now : Op P m).SizeAtMost 65535)
    (hroom : s.HasRoom cfg (.pushFront q vn color item now)) {v : Fin k}
    (hv : vnIndex vn = some v) {accepted : Bool} {before after : List (Event P k)}
    {e : Event P k} {p : Port P k}
    (hsplit : logOf q (s.creation q now) ++ [.push v color item accepted] =
      before ++ e :: after)
    (hrun : Run (Port.Life cfg.vnWeights) (s.port cfg q) before (some p)) : e.HasRoom p := by
  cases hlq : s.logicalQueuesInfo q with
  | some lq =>
      have hcreation : logOf q (s.creation q now) = [] := by simp [creation, hlq]
      rw [hcreation, List.nil_append] at hsplit
      obtain ⟨rfl, heq⟩ | ⟨rest, -, hrest⟩ := List.cons_eq_append_iff.mp hsplit
      · rw [(List.cons.inj heq).1]
        intro hcolor
        have hport := (port_eq_some.mp (Run.eq_of_nil hrun)).1
        exact hroom hcolor v p.info hv hport
      · simp at hrest
  | none =>
      have hcreation : logOf q (s.creation q now) = [.create now] := by
        simp [creation, hlq, logOf]
      rw [hcreation] at hsplit
      rw [(port_eq_none hcoh).mpr hlq] at hrun
      obtain ⟨-, heq⟩ | ⟨rest, rfl, hrest⟩ := List.cons_eq_append_iff.mp hsplit
      · rw [(List.cons.inj heq).1]
        trivial
      obtain ⟨rfl, heq⟩ | ⟨more, -, hmore⟩ := List.cons_eq_append_iff.mp hrest
      · rw [(List.cons.inj heq).1]
        obtain ⟨o, hcreate, hnil⟩ := Run.of_cons hrun
        cases hcreate with
        | create capacity =>
            intro _
            have hp := Run.eq_of_nil hnil
            simp only [Option.some.injEq] at hp
            rw [← hp]
            have hle : ingressSize item ≤ 65535 := hsize
            simp only [Port.initial, LogicalQueueInfo.new]
            omega
      · simp at hmore

theorem event_hasRoom (hcoh : s.Coherent cfg)
    (hwf : ∀ q p, s.port cfg q = some p → p.WellFormed)
    (hstep : s.step cfg op = some (s', calls)) (hsize : op.SizeAtMost 65535)
    (hroom : s.HasRoom cfg op) {before after : List (Event P k)} {e : Event P k} {p : Port P k}
    (hsplit : logOf q (calls.flatMap Call.log) = before ++ e :: after)
    (hrun : Run (Port.Life cfg.vnWeights) (s.port cfg q) before (some p)) : e.HasRoom p := by
  obtain ⟨call, rfl, rfl, -, hspec⟩ := step_spec hcoh hwf hstep
  rw [List.flatMap_singleton] at hsplit
  have hmem : e ∈ logOf q call.log := by simp [hsplit]
  cases hspec with
  | @pushFront q' vn color item now accepted v hv hpush =>
      rw [logOf_append, logOf_singleton] at hsplit
      split at hsplit
      next heq =>
        subst q'
        exact push_hasRoom hcoh hsize hroom (vnIndex_eq_some.mpr hv) hsplit hrun
      next hne =>
        have hcontrol : e.Control (some now) := by
          have hcreation : e ∈ logOf q (s.creation q' now) := by
            rw [List.append_nil] at hsplit
            simp [hsplit]
          exact creation_control q' now (q, e) (mem_logOf.mp hcreation)
        cases e <;> trivial
  | scan hscan =>
      cases e with
      | select sel =>
          have hrun' := scan_of_step hstep
          obtain ⟨p₀, lq', hport, -, rfl⟩ := select_of_scan hcoh hrun' hsplit
          have hswept := hroom _ _ _ hrun' q p₀ sel (mem_logOf.mp hmem) hport
          rw [hport] at hrun
          obtain ⟨o, hsweep, hnil⟩ := Run.of_cons hrun
          have hp := Run.eq_of_nil hnil
          subst o
          cases hsweep with
          | live hlive =>
              cases hlive
              exact hswept
      | push => exact (hscan.scannedAt q _ hmem).elim
      | _ => trivial
  | setter _ hlog =>
      have hcontrol := hlog _ (mem_logOf.mp hmem)
      cases e <;> trivial

/-- The counters of all queues stay in range through a call with room. -/
theorem counterState_step (hproduct : ∀ i, Fits 32 (cfg.vnWeights i * quantum))
    (hcoh : s.Coherent cfg) (hports : ∀ q p, s.port cfg q = some p → p.CounterState)
    (hstep : s.step cfg op = some (s', calls)) (hsize : op.SizeAtMost 65535)
    (hroom : s.HasRoom cfg op) : ∀ q p, s'.port cfg q = some p → p.CounterState := by
  intro q
  have hwf : ∀ q p, s.port cfg q = some p → p.WellFormed :=
    fun q p hp => (hports q p hp).wellFormed
  have hevents : ∀ before e after p, logOf q (calls.flatMap Call.log) = before ++ e :: after →
      Run (Port.Life cfg.vnWeights) (s.port cfg q) before (some p) → e.HasRoom p :=
    fun before e after p => event_hasRoom hcoh hwf hstep hsize hroom
  obtain ⟨call, rfl, rfl, hadvances, hspec⟩ := step_spec hcoh hwf hstep
  rw [List.flatMap_singleton] at hevents
  exact Port.counterState_life cfg.vnWeights_pos hproduct (hports q) (hspec.sizeAtMost hsize)
    hevents (hadvances.life q)

theorem exact_of_hasRoom (hcoh : s.Coherent cfg)
    (hports : ∀ q p, s.port cfg q = some p → p.CounterState) (hsize : op.SizeAtMost 65535)
    (hroom : s.HasRoom cfg op) : s.Exact cfg op := by
  cases op with
  | pushFront q vn color item now =>
      intro v hv
      refine ((getLogicalQueue cfg s q (cfg.mapToWorker q) now).2.accrueInt_eq_some
        (fits_size hsize)).mpr ⟨rfl, fun hcolor => fits_32_iff.mpr ?_⟩
      have hle : ingressSize item ≤ 65535 := hsize
      unfold getLogicalQueue
      cases hlq : s.logicalQueuesInfo q with
      | none =>
          simp only [LogicalQueueInfo.new]
          omega
      | some lq =>
          obtain ⟨phys, hport⟩ := exists_port hcoh hlq
          have hlower := (hports q _ hport).credit_lower v
          have hupper := hroom hcolor v lq hv hlq
          simp only [Port.vn] at hlower ⊢
          omega
  | scan w now =>
      intro s' outcome log hscan q p sel hmem hport
      obtain ⟨lq', hselect⟩ := selectVn_of_mem hcoh hscan hmem hport
      have hswept : (p.sweep now).CounterState :=
        (hports q p hport).step (Port.Step.sweep p now) trivial trivial
      have hfits := Port.selectFits_of_room hswept hselect
        (hroom s' outcome log hscan q p sel hmem hport)
      exact (Port.selectVnInt_iff hswept.wellFormed hswept.phys_le hselect).mpr hfits
  | _ => trivial

theorem hasRoom_of_exact (hcoh : s.Coherent cfg)
    (hwf : ∀ q p, s.port cfg q = some p → p.WellFormed)
    (hphys : ∀ q p, s.port cfg q = some p → ∀ i, ∀ qe ∈ p.phys i, qe.pktSize ≤ 65535)
    (hsize : op.SizeAtMost 65535) (hexact : s.Exact cfg op) : s.HasRoom cfg op := by
  cases op with
  | pushFront q vn color item now =>
      intro hcolor v lq hv hlq
      have haccrue := hexact v hv
      simp only [getLogicalQueue, hlq] at haccrue
      exact (fits_32_iff.mp (((lq.accrueInt_eq_some (fits_size hsize)).mp haccrue).2 hcolor)).2
  | scan w now =>
      intro s' outcome log hscan q p sel hmem hport
      obtain ⟨lq', hselect⟩ := selectVn_of_mem hcoh hscan hmem hport
      have hswept : (p.sweep now).WellFormed := (hwf q p hport).sweep now
      have hint := hexact s' outcome log hscan q p sel hmem hport
      exact Port.room_of_selectFits hswept hselect
        ((Port.selectVnInt_iff hswept (hphys q p hport) hselect).mp hint)
  | _ => trivial

/-! ## Runs -/

section Runs

variable {capacity : ℕ} {ops : List (Op P m)} {history : List (Call P m k)}

/-- Every call of the run meets `C` in the state which it finds. -/
def EachCall (cfg : Config m k) (capacity : ℕ) (C : QueueingLogicVN P m k → Op P m → Prop)
    (ops : List (Op P m)) : Prop :=
  ExecEach (fun s op => step cfg s op) (initial capacity) C ops

/-- No counter leaves the range of `int` in the run, and the arithmetic of each
call is exact. -/
structure CountersExact (cfg : Config m k) (capacity : ℕ) (ops : List (Op P m))
    (s : QueueingLogicVN P m k) : Prop where
  product : ∀ i, Fits 32 (cfg.vnWeights i * quantum)
  calls : EachCall cfg capacity (fun s op => s.CountersFit ∧ s.Exact cfg op) ops
  reached : s.CountersFit

theorem counterState_run (hproduct : ∀ i, Fits 32 (cfg.vnWeights i * quantum))
    (hops : ∀ op ∈ ops, op.SizeAtMost 65535)
    (hroom : EachCall cfg capacity (fun s op => s.HasRoom cfg op) ops)
    (hrun : run cfg (initial capacity) ops = some (s, history)) :
    ∀ q p, s.port cfg q = some p → p.CounterState := by
  have heach : EachCall cfg capacity
      (fun s op => s.Coherent cfg ∧ op.SizeAtMost 65535 ∧ s.HasRoom cfg op) ops := by
    intro before op after s history hsplit hbefore
    exact ⟨run_coherent hbefore, hops op (by simp [hsplit]),
      hroom before op after s history hsplit hbefore⟩
  refine heach.invariant (I := fun s => ∀ q p, s.port cfg q = some p → p.CounterState)
    (by simp) ?_ hrun
  intro s op s' calls hports hcall hstep
  exact counterState_step hproduct hcall.1 hports hstep hcall.2.1 hcall.2.2

omit [IngressPacket P] in
theorem countersFit_of_ports (hcoh : s.Coherent cfg)
    (hports : ∀ q p, s.port cfg q = some p → p.CounterState) : s.CountersFit := by
  intro q lq hlq
  obtain ⟨phys, hport⟩ := exists_port hcoh hlq
  exact (hports q _ hport).fits

theorem countersExact_iff (hops : ∀ op ∈ ops, op.SizeAtMost 65535)
    (hrun : run cfg (initial capacity) ops = some (s, history)) :
    CountersExact cfg capacity ops s ↔ (∀ i, Fits 32 (cfg.vnWeights i * quantum)) ∧
      EachCall cfg capacity (fun s op => s.HasRoom cfg op) ops := by
  constructor
  · intro hexact
    refine ⟨hexact.product, ?_⟩
    intro before op after s history hsplit hbefore
    have hsizes : ∀ op ∈ before, op.SizeAtMost 65535 :=
      fun op hop => hops op (by simp [hsplit, hop])
    refine hasRoom_of_exact (run_coherent hbefore) (run_wellFormed hbefore) ?_
      (hops op (by simp [hsplit])) (hexact.calls before op after s history hsplit hbefore).2
    intro q p hport
    obtain ⟨phys, hport', hstate⟩ :=
      deficitState_of_run (by decide) hsizes hbefore (port_eq_some.mp hport).1
    rw [hport, Option.some.injEq] at hport'
    rw [hport']
    exact hstate.phys_le
  · intro h
    obtain ⟨hproduct, hroom⟩ := h
    refine ⟨hproduct, ?_, countersFit_of_ports (run_coherent hrun)
      (counterState_run hproduct hops hroom hrun)⟩
    intro before op after s history hsplit hbefore
    have hsizes : ∀ op ∈ before, op.SizeAtMost 65535 :=
      fun op hop => hops op (by simp [hsplit, hop])
    have hrooms : EachCall cfg capacity (fun s op => s.HasRoom cfg op) before := by
      rw [hsplit] at hroom
      exact hroom.before
    have hports := counterState_run hproduct hsizes hrooms hbefore
    exact ⟨countersFit_of_ports (run_coherent hbefore) hports,
      exact_of_hasRoom (run_coherent hbefore) hports (hops op (by simp [hsplit]))
        (hroom before op after s history hsplit hbefore)⟩

end Runs

theorem fits_product_iff {w : ℤ} (hw : 0 < w) : Fits 32 (w * quantum) ↔ w ≤ 1418417 := by
  rw [fits_32_iff, quantum]
  omega

/-- With accepted weights the counters stay exact in a run exactly when no
weight is above 1418417 and each call finds room. -/
theorem counters_never_overflow_iff {opt : StringOption} {vnWeights : List ℤ}
    (hparse : parseVnWeights opt = .ok vnWeights) (mapToWorker : ℕ → Fin m) {capacity : ℕ}
    {ops : List (Op P m)} {s : QueueingLogicVN P m vnWeights.length}
    {history : List (Call P m vnWeights.length)} (hops : ∀ op ∈ ops, op.SizeAtMost 65535)
    (hrun : run (Config.parsed mapToWorker hparse) (initial capacity) ops = some (s, history)) :
    CountersExact (Config.parsed mapToWorker hparse) capacity ops s ↔
      (∀ w ∈ vnWeights, w ≤ 1418417) ∧
        EachCall (Config.parsed mapToWorker hparse) capacity
          (fun s op => s.HasRoom (Config.parsed mapToWorker hparse) op) ops := by
  rw [countersExact_iff hops hrun]
  refine and_congr ?_ Iff.rfl
  have hweights := parseVnWeights_weights hparse
  constructor
  · intro hproduct w hw
    obtain ⟨i, rfl⟩ := List.get_of_mem hw
    exact (fits_product_iff (hweights _ hw).1).mp (hproduct i)
  · intro hle i
    have hmem := List.get_mem vnWeights i
    exact (fits_product_iff (hweights _ hmem).1).mpr (hle _ hmem)

/-! ## Credit without service -/

theorem port_step_pushFront (v : Fin k) (color : ℕ) (item : Option P) {now : Ticks}
    {p : Port P k}
    (hport : (s.getLogicalQueue cfg q (cfg.mapToWorker q) now).1.port cfg q = some p)
    (hinfo : p.info = (s.getLogicalQueue cfg q (cfg.mapToWorker q) now).2) :
    ∃ s' calls, s.step cfg (.pushFront q v color item now) = some (s', calls) ∧
      s'.port cfg q = some (p.push v color item) := by
  have hv : vnIndex (v : ℕ) = some v := vnIndex_eq_some.mpr rfl
  simp only [step, hv, pushFront_eq hv hport hinfo, Option.bind_eq_bind, Option.bind_some]
  refine ⟨_, _, rfl, ?_⟩
  rw [port_write, if_pos rfl]

/-- Green packets which a full queue rejects, one after the other. -/
def rejectedOps (q : ℕ) (v : Fin k) (L n : ℕ) : List (Op ℕ m) :=
  List.replicate n (.pushFront q v 0 (some L) 1)

/-- A queue which rejects green packets only gathers credit. -/
theorem credit_of_rejected (cfg : Config m k) (q : ℕ) (v : Fin k) (L n : ℕ) :
    ∃ s history p, run cfg (initial 0) (rejectedOps q v L (n + 1)) = some (s, history) ∧
      s.port cfg q = some p ∧ (p.vn v).capacity = 0 ∧ (p.vn v).greenCredit = L * (n + 1) := by
  induction n with
  | zero =>
      have hcoh : (initial 0 : QueueingLogicVN ℕ m k).Coherent cfg := coherent_initial 0
      obtain ⟨-, p, hport, hinfo⟩ := getLogicalQueue_advances hcoh q 1
      obtain ⟨s', calls, hstep, hport'⟩ :=
        port_step_pushFront v 0 (some L) hport hinfo
      have hnew : p.info = LogicalQueueInfo.new 0 cfg.vnWeights 1 := by
        rw [hinfo]
        rfl
      refine ⟨s', calls ++ [], _, ?_, hport', ?_, ?_⟩
      · exact exec_cons_eq_some.mpr ⟨s', calls, [], hstep, rfl, rfl⟩
      · rw [Port.push_vn]
        simp [Port.vn, hnew, LogicalQueueInfo.new]
      · rw [Port.push_vn]
        simp [Port.vn, hnew, LogicalQueueInfo.new, ingressSize, IngressPacket.getIngressLength]
  | succ n ih =>
      obtain ⟨s, history, p, hrun, hport, hcap, hcredit⟩ := ih
      have hlq := (port_eq_some.mp hport).1
      have hget : s.getLogicalQueue cfg q (cfg.mapToWorker q) 1 = (s, p.info) := by
        simp [getLogicalQueue, hlq]
      obtain ⟨s', calls, hstep, hport'⟩ :=
        port_step_pushFront v 0 (some L) (hget.symm ▸ hport) (congrArg Prod.snd hget).symm
      refine ⟨s', history ++ calls, _, ?_, hport', ?_, ?_⟩
      · rw [rejectedOps, List.replicate_succ']
        exact exec_concat_eq_some.mpr ⟨s, history, calls, hrun, hstep, rfl⟩
      · rw [Port.push_vn]
        exact hcap
      · rw [Port.push_vn]
        simp only [and_self, if_true, hcredit, ingressSize, IngressPacket.getIngressLength]
        push_cast
        ring

theorem credit_overflows (cfg : Config m k) (v : Fin k) :
    ∃ s history, run cfg (initial 0) (rejectedOps 0 v 65535 32769) = some (s, history) ∧
      ¬ s.CountersFit := by
  obtain ⟨s, history, p, hrun, hport, -, hcredit⟩ := credit_of_rejected cfg 0 v 65535 32768
  refine ⟨s, history, hrun, ?_⟩
  intro hfit
  have hfits := (hfit 0 p.info (port_eq_some.mp hport).1).greenCredit v
  rw [fits_32_iff] at hfits
  simp only [Port.vn] at hcredit
  omega

/-! ## One yellow packet, with the default weight and with the largest -/

def yellowOps : List (Op ℕ 1) :=
  [.pushFront 0 0 1 (some 1514) 1, .scan (Fin.last 0) 2]

theorem yellowOps_sizeAtMost : ∀ op ∈ yellowOps, op.SizeAtMost 65535 := by
  simp [yellowOps, Op.SizeAtMost, ingressSize, IngressPacket.getIngressLength]

theorem parse_notProvided : parseVnWeights .notProvided = .ok [1] := rfl

theorem counters_never_overflow_iff_default :
    ∃ s history,
      run (Config.parsed (fun _ => (0 : Fin 1)) parse_notProvided) (initial 64) yellowOps =
        some (s, history) ∧
      CountersExact (Config.parsed (fun _ => (0 : Fin 1)) parse_notProvided) 64 yellowOps s := by
  have hvn : ∀ op ∈ yellowOps, op.VnBelow 1 := by simp [yellowOps, Op.VnBelow]
  obtain ⟨s, history, hrun⟩ :=
    run_isSome (Config.parsed (fun _ => (0 : Fin 1)) parse_notProvided) 64 yellowOps hvn
  refine ⟨s, history, hrun,
    (counters_never_overflow_iff parse_notProvided _ yellowOps_sizeAtMost hrun).mpr
      ⟨by simp, ?_⟩⟩
  intro before op after s history hsplit hbefore
  have hop : op = .pushFront 0 0 1 (some 1514) 1 ∨ op = .scan (Fin.last 0) 2 := by
    have hmem : op ∈ yellowOps := by simp [hsplit]
    simpa [yellowOps] using hmem
  rcases hop with rfl | rfl
  · intro hcolor
    simp at hcolor
  · intro s' outcome log hscan q p sel hmem hport _ r _ i _ hempty
    -- the only VN is the one which is served
    obtain ⟨lq', hselect⟩ := selectVn_of_mem (run_coherent hbefore) hscan hmem hport
    have hwf := (run_wellFormed hbefore q p hport).sweep 2
    have hselected := (p.info.sweep 2).selectVn_selected hwf.nodup hselect
    have hi : i = sel.vn := Fin.ext (by
      have hlt := i.isLt
      have hlt' := sel.vn.isLt
      simp only [List.length_singleton] at hlt hlt'
      omega)
    rw [hi] at hempty
    exact absurd hempty hselected.vn_nonempty

def largestWeight : StringOption := .success "2147483647".toList

theorem parse_largestWeight : parseVnWeights largestWeight = .ok [2147483647] := by
  decide +kernel

/-- One replenishment takes the deficit beyond the range of `int`. -/
theorem not_counters_never_overflow :
    ¬ ∀ (opt : StringOption) (vnWeights : List ℤ)
      (hparse : parseVnWeights opt = .ok vnWeights) (mapToWorker : ℕ → Fin 1) (capacity : ℕ)
      (ops : List (Op ℕ 1)) (s : QueueingLogicVN ℕ 1 vnWeights.length)
      (history : List (Call ℕ 1 vnWeights.length)), (∀ op ∈ ops, op.SizeAtMost 65535) →
        run (Config.parsed mapToWorker hparse) (initial capacity) ops = some (s, history) →
          CountersExact (Config.parsed mapToWorker hparse) capacity ops s := by
  intro hall
  have heval : ((run (Config.parsed (fun _ => (0 : Fin 1)) parse_largestWeight) (initial 64)
      yellowOps).bind fun result => (result.1.logicalQueuesInfo 0).map fun lq =>
        (lq.vnQueues 0).weightedDeficit) = some (2147483647 * 1514 - 1514) := by
    decide +kernel
  obtain ⟨⟨s, history⟩, hrun, hrest⟩ := Option.bind_eq_some_iff.mp heval
  obtain ⟨lq, hlq, hdeficit⟩ := Option.map_eq_some_iff.mp hrest
  have hexact := hall largestWeight [2147483647] parse_largestWeight (fun _ => 0) 64 yellowOps
    s history yellowOps_sizeAtMost hrun
  have hfits := (hexact.reached 0 lq hlq).weightedDeficit 0
  rw [hdeficit] at hfits
  exact absurd hfits (by decide)

end QueueingLogicVN

end Cmcs
