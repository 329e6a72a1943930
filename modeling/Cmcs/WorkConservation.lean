import Cmcs.ScanOrder
import Cmcs.WorkerSleep
import Mathlib.Data.Finset.Max
import Mathlib.Tactic

/-!
# Work conservation and the wake-up time

A scan of a worker with packets serves a queue whenever some queue is ready, and
otherwise leaves nothing behind but the decisions.  The wake-up time is computed
from the level and the rate, and cast to a tick of the clock.  The cast rounds
down, so the worker wakes when the first queue opens only if that instant is a
whole number of ticks; else it wakes one tick early and finds nothing to do.
-/

namespace Cmcs

/-- The least instant of a set is on a tick if and only if the tick below it is the
first tick of the set. -/
theorem isLeast_floor_iff {instants : Set ℚ} {r : ℚ} (hr : IsLeast instants r) :
    IsLeast {t : ℤ | (t : ℚ) ∈ instants} ⌊r⌋ ↔ ∃ n : ℤ, IsLeast instants n := by
  constructor
  · intro hfloor
    refine ⟨⌊r⌋, hfloor.1, fun r' hr' => ?_⟩
    exact (Int.floor_le r).trans (hr.2 hr')
  · rintro ⟨n, hn⟩
    rw [hr.unique hn, Int.floor_intCast]
    exact ⟨hn.1, fun t ht => Int.cast_le.mp (hn.2 ht)⟩

variable {P : Type} {m k : ℕ}

namespace LogicalQueueInfo

/-- `decayedLevel` at an exact instant, in ticks. -/
def levelAt (lq : LogicalQueueInfo k) (r : ℚ) : ℚ :=
  lq.X - (r - lq.LCT) / 10 ^ 9 * lq.dequeueRateBps

/-- The exact instant at which the level falls to the ceiling. -/
def opening (lq : LogicalQueueInfo k) (now : Ticks) : ℚ :=
  now + (lq.decayedLevel now - lq.tau) / lq.dequeueRateBps * 10 ^ 9

variable {lq : LogicalQueueInfo k} {now : Ticks}

theorem decayedLevel_eq_levelAt (lq : LogicalQueueInfo k) (t : Ticks) :
    lq.decayedLevel t = lq.levelAt t := by
  simp [decayedLevel, levelAt, seconds]

theorem levelAt_le_iff (hrate : 0 < lq.dequeueRateBps) (r : ℚ) :
    lq.levelAt r ≤ lq.tau ↔ lq.opening now ≤ r := by
  have hlevel : lq.levelAt r =
      lq.decayedLevel now - (r - now) / 10 ^ 9 * lq.dequeueRateBps := by
    simp only [levelAt, decayedLevel, seconds, Int.cast_sub]
    ring
  have hopening : lq.opening now ≤ r ↔
      (lq.decayedLevel now - lq.tau) / lq.dequeueRateBps ≤ (r - now) / 10 ^ 9 := by
    rw [opening, le_div_iff₀ (by norm_num)]
    constructor <;> intro h <;> linarith
  rw [hlevel, hopening, div_le_iff₀ hrate]
  constructor <;> intro h <;> linarith

theorem le_opening (hrate : 0 < lq.dequeueRateBps) (hblocked : lq.tau < lq.decayedLevel now) :
    (now : ℚ) ≤ lq.opening now := by
  have hwait : 0 ≤ (lq.decayedLevel now - lq.tau) / lq.dequeueRateBps * 10 ^ 9 := by
    have hexcess := sub_nonneg.mpr hblocked.le
    positivity
  rw [opening]
  linarith

/-- The cast to ticks rounds the opening down. -/
theorem wakeTime_eq_floor (hrate : 0 < lq.dequeueRateBps)
    (hblocked : lq.tau < lq.decayedLevel now) :
    lq.wakeTime now = ((⌊lq.opening now⌋ : Ticks) : WithTop Ticks) := by
  have hwait : 0 ≤ (lq.decayedLevel now - lq.tau) / lq.dequeueRateBps :=
    div_nonneg (sub_nonneg.mpr hblocked.le) hrate.le
  rw [wakeTime, if_neg hrate.ne', toTicks_eq_floor hwait, opening, add_comm (now : ℚ),
    Int.floor_add_intCast, add_comm]

/-- What a scan without an output does to a queue of the worker: the decision is
taken if it was not pending. -/
structure Deferred (lq lq' : LogicalQueueInfo k) : Prop where
  same : SameLevel lq lq'
  kept : lq.pendingVn.isSome ∨ lq.size = 0 → lq' = lq

theorem Deferred.refl (lq : LogicalQueueInfo k) : Deferred lq lq := ⟨.refl lq, fun _ => rfl⟩

theorem Deferred.trans {lq' lq'' : LogicalQueueInfo k} (hfirst : Deferred lq lq')
    (hsecond : Deferred lq' lq'') : Deferred lq lq'' := by
  refine ⟨hfirst.same.trans hsecond.same, fun hpending => ?_⟩
  have heq := hfirst.kept hpending
  subst heq
  exact hsecond.kept hpending

end LogicalQueueInfo

/-! ## A loop which selects nothing -/

theorem visit_deferred {p : Port P k} {now : Ticks} (hwf : p.WellFormed)
    (hsize : p.info.size ≠ 0) {visit : Visit P k}
    (hvisit : p.info.visit now p.phys = some visit) (hserved : visit.served = none) :
    p.info.Deferred visit.queue := by
  cases visit_cases hwf hvisit with
  | served v hsome => simp [hsome] at hserved
  | deferred _ hblocked hsame =>
      refine ⟨hsame, fun hpending => ?_⟩
      cases hpending with
      | inr hempty => exact absurd hempty hsize
      | inl hpending =>
          obtain ⟨v, hv⟩ := Option.isSome_iff_exists.mp hpending
          unfold LogicalQueueInfo.visit at hvisit
          simp only [LogicalQueueInfo.decision, hv, Option.bind_eq_bind, Option.bind_some]
            at hvisit
          obtain ⟨head, -, houtcome⟩ := Option.bind_eq_some_iff.mp hvisit
          simp only [hblocked, if_true, Option.some.injEq] at houtcome
          rw [← houtcome]

theorem visit_reports {p : Port P k} {now : Ticks} (hwf : p.WellFormed) {visit : Visit P k}
    (hvisit : p.info.visit now p.phys = some visit) (hserved : visit.served = none) :
    visit.queue.pendingVn.isSome ∧ visit.wakeTime = p.info.wakeTime now := by
  cases visit_cases hwf hvisit with
  | served v hsome => simp [hsome] at hserved
  | deferred _ _ _ hpending hwake => exact ⟨hpending, hwake⟩

namespace WorkerInfo

variable {wInfo : WorkerInfo P k} {now : Ticks} {cs : List ℕ}
variable {queues : ℕ → Option (LogicalQueueInfo k)} {scanned : ScanState P k}

structure Blocked (wInfo : WorkerInfo P k) (now : Ticks) (cs : List ℕ)
    (queues : ℕ → Option (LogicalQueueInfo k)) (scanned : ScanState P k) : Prop where
  deferred : ∀ q, Option.Rel LogicalQueueInfo.Deferred (queues q) (scanned.queues q)
  pending : ∀ c ∈ cs, ∀ q lq, wInfo.candidate c = some q → scanned.queues q = some lq →
    lq.size ≠ 0 → lq.pendingVn.isSome
  wake : scanned.nextWakeUpTime = ⊤ ∨
    ∃ c ∈ cs, ∃ q lq, wInfo.candidate c = some q ∧ queues q = some lq ∧ lq.size ≠ 0 ∧
      scanned.nextWakeUpTime = lq.wakeTime now

theorem Blocked.skip {c qid : ℕ} {lq : LogicalQueueInfo k}
    (hcandidate : wInfo.candidate c = some qid) (hlq : queues qid = some lq)
    (hsize : lq.size = 0) (hrest : wInfo.Blocked now cs queues scanned) :
    wInfo.Blocked now (c :: cs) queues scanned := by
  refine ⟨hrest.deferred, fun c' hc' q lq' hq hlq' hsize' => ?_, ?_⟩
  · cases List.mem_cons.mp hc' with
    | inr hmem => exact hrest.pending c' hmem q lq' hq hlq' hsize'
    | inl heq =>
        subst c'
        rw [hcandidate, Option.some.injEq] at hq
        subst q
        have hdeferred := hrest.deferred qid
        rw [hlq, hlq', Option.rel_some_some] at hdeferred
        exact absurd (hdeferred.same.size.trans hsize) hsize'
  · cases hrest.wake with
    | inl hnone => exact Or.inl hnone
    | inr hsome =>
        obtain ⟨c', hc', hmore⟩ := hsome
        exact Or.inr ⟨c', List.mem_cons_of_mem _ hc', hmore⟩

/-- The wake-up of a loop in which the visit of a candidate comes before the others. -/
theorem wake_visited {c qid : ℕ} {lq lq' : LogicalQueueInfo k} {wakeTime later : WithTop Ticks}
    (hcandidate : wInfo.candidate c = some qid) (hlq : queues qid = some lq)
    (hsize : lq.size ≠ 0) (hdeferred : lq.Deferred lq') (hwake : wakeTime = lq.wakeTime now)
    (hlater : later = ⊤ ∨ ∃ c ∈ cs, ∃ q lq, wInfo.candidate c = some q ∧
      Function.update queues qid (some lq') q = some lq ∧ lq.size ≠ 0 ∧ later = lq.wakeTime now) :
    ∃ c' ∈ c :: cs, ∃ q lq, wInfo.candidate c' = some q ∧ queues q = some lq ∧ lq.size ≠ 0 ∧
      min wakeTime later = lq.wakeTime now := by
  have hfirst : ∃ c' ∈ c :: cs, ∃ q lq, wInfo.candidate c' = some q ∧ queues q = some lq ∧
      lq.size ≠ 0 ∧ wakeTime = lq.wakeTime now :=
    ⟨c, List.mem_cons_self, qid, lq, hcandidate, hlq, hsize, hwake⟩
  cases hlater with
  | inl hnone => rwa [hnone, min_eq_left le_top]
  | inr hsome =>
      cases min_choice wakeTime later with
      | inl hmin => rwa [hmin]
      | inr hmin =>
          rw [hmin]
          obtain ⟨c', hc', q, lq₁, hq, hupdated, hsize', hlast⟩ := hsome
          refine ⟨c', List.mem_cons_of_mem _ hc', q, ?_⟩
          by_cases heq : q = qid
          · subst q
            rw [Function.update_self, Option.some.injEq] at hupdated
            subst lq₁
            exact ⟨lq, hq, hlq, hsize, hlast.trans (hdeferred.same.wakeTime now)⟩
          · rw [Function.update_of_ne heq] at hupdated
            exact ⟨lq₁, hq, hupdated, hsize', hlast⟩

/-- A candidate which is visited in vain keeps the decision for it. -/
theorem Blocked.visited {c qid : ℕ} {lq lq' : LogicalQueueInfo k} {rest : ScanState P k}
    {wakeTime : WithTop Ticks} {log : List (ℕ × Event P k)}
    (hcandidate : wInfo.candidate c = some qid) (hlq : queues qid = some lq)
    (hsize : lq.size ≠ 0) (hdeferred : lq.Deferred lq') (hpending : lq'.pendingVn.isSome)
    (hwake : wakeTime = lq.wakeTime now)
    (hrest : wInfo.Blocked now cs (Function.update queues qid (some lq')) rest) :
    wInfo.Blocked now (c :: cs) queues
      { rest with nextWakeUpTime := min wakeTime rest.nextWakeUpTime, log := log } := by
  constructor
  · intro q
    have hlater := hrest.deferred q
    by_cases hq : q = qid
    · subst q
      rw [Function.update_self] at hlater
      rw [hlq]
      change Option.Rel _ _ (rest.queues qid)
      generalize rest.queues qid = after at hlater
      cases hlater with
      | some hmore => exact .some (hdeferred.trans hmore)
    · rwa [Function.update_of_ne hq] at hlater
  · intro c' hc' q lq₁ hq hlq₁ hsize'
    cases List.mem_cons.mp hc' with
    | inr hmem => exact hrest.pending c' hmem q lq₁ hq hlq₁ hsize'
    | inl heq =>
        subst c'
        obtain rfl : qid = q := Option.some.inj (hcandidate.symm.trans hq)
        have hlater := hrest.deferred qid
        rw [Function.update_self, hlq₁, Option.rel_some_some] at hlater
        rw [hlater.kept (Or.inl hpending)]
        exact hpending
  · exact Or.inr (wake_visited hcandidate hlq hsize hdeferred hwake hrest.wake)

theorem scanLoop_blocked [IngressPacket P]
    (hwf : ∀ q p, wInfo.port queues q = some p → p.WellFormed)
    (hscan : wInfo.scanLoop now cs queues = some scanned)
    (hselected : scanned.selected = none) : wInfo.Blocked now cs queues scanned := by
  induction cs generalizing queues scanned with
  | nil =>
      simp only [scanLoop, Option.some.injEq] at hscan
      subst scanned
      refine ⟨fun q => ?_, fun c hc => by simp at hc, Or.inl rfl⟩
      change Option.Rel _ (queues q) (queues q)
      cases queues q with
      | none => exact .none
      | some lq => exact .some (LogicalQueueInfo.Deferred.refl lq)
  | cons c cs ih =>
      cases wInfo.scanLoop_cons now hscan with
      | empty hid hlq hsize hloop => exact (ih hwf hloop hselected).skip hid hlq hsize
      | served => simp at hselected
      | @deferred qid p visit rest hid hport hsize hvisit hserved hloop =>
          have hp := hwf qid p hport
          have hvisited := visit_visited hsize hp hvisit
          obtain ⟨hpending, hwake⟩ := visit_reports hp hvisit hserved
          have hrest := ih (port_update_wellFormed hwf hport hvisited hserved) hloop hselected
          exact hrest.visited hid (wInfo.port_eq_some.mp hport).1 hsize
            (visit_deferred hp hsize hvisit hserved) hpending hwake

end WorkerInfo

/-! ## A scan without an output -/

namespace QueueingLogicVN

variable {cfg : Config m k} {s s' : QueueingLogicVN P m k} {w : Fin m} {now : Ticks}

theorem ready_iff (hcoh : s.Coherent cfg) {t : Ticks} {q : ℕ} :
    s.Ready cfg t q ↔ ∃ lq, s.logicalQueuesInfo q = some lq ∧ lq.size ≠ 0 ∧
      lq.decayedLevel t ≤ lq.tau := by
  constructor
  · intro hready
    obtain ⟨p, hport, hcompliant⟩ := hready
    exact ⟨p.info, (port_eq_some.mp hport).1, hcompliant⟩
  · intro hready
    obtain ⟨lq, hlq, hcompliant⟩ := hready
    obtain ⟨phys, hport⟩ := exists_port hcoh hlq
    exact ⟨⟨lq, phys⟩, hport, hcompliant⟩

/-- The exact instants from `now` on at which the bucket of a non-empty queue of
worker `w` lets a packet pass. -/
def openings (cfg : Config m k) (s : QueueingLogicVN P m k) (w : Fin m) (now : Ticks) : Set ℚ :=
  {r | (now : ℚ) ≤ r ∧ ∃ q lq, cfg.mapToWorker q = w ∧ s.logicalQueuesInfo q = some lq ∧
    lq.size ≠ 0 ∧ lq.levelAt r ≤ lq.tau}

theorem mem_openings (hcoh : s.Coherent cfg) (t : Ticks) :
    (t : ℚ) ∈ s.openings cfg w now ↔
      now ≤ t ∧ ∃ q, cfg.mapToWorker q = w ∧ s.Ready cfg t q := by
  simp only [openings, Set.mem_ofPred_eq, Int.cast_le, ready_iff hcoh,
    ← LogicalQueueInfo.decayedLevel_eq_levelAt]
  constructor
  · intro hopen
    obtain ⟨hnow, q, lq, hw, hlq⟩ := hopen
    exact ⟨hnow, q, hw, lq, hlq⟩
  · intro hopen
    obtain ⟨hnow, q, hw, lq, hlq⟩ := hopen
    exact ⟨hnow, q, lq, hw, hlq⟩

/-- What a scan of a worker with packets does when it outputs none. -/
structure Waited (cfg : Config m k) (s s' : QueueingLogicVN P m k) (w : Fin m) (now : Ticks)
    (outcome : ScanOutcome P k) (scanned : ScanState P k) : Prop where
  outcome_eq : outcome = .waitUntil scanned.nextWakeUpTime
  state_eq : s' = { s with logicalQueuesInfo := scanned.queues }
  blocked : (s.workersInfo w).Blocked now (List.range (s.workersInfo w).logicalQueueIds.length)
    s.logicalQueuesInfo scanned
  frame : ∀ q, cfg.mapToWorker q ≠ w → scanned.queues q = s.logicalQueuesInfo q
  not_ready : ∀ q, cfg.mapToWorker q = w → ¬s.Ready cfg now q
  wake_le : ∀ q lq, cfg.mapToWorker q = w → s.logicalQueuesInfo q = some lq → lq.size ≠ 0 →
    scanned.nextWakeUpTime ≤ lq.wakeTime now

section Waited

variable {outcome : ScanOutcome P k} {scanned : ScanState P k}

theorem Waited.deferred (hwaited : Waited cfg s s' w now outcome scanned) (q : ℕ) :
    Option.Rel LogicalQueueInfo.Deferred (s.logicalQueuesInfo q) (s'.logicalQueuesInfo q) := by
  rw [hwaited.state_eq]
  exact hwaited.blocked.deferred q

theorem Waited.pending (hcoh : s.Coherent cfg)
    (hwaited : Waited cfg s s' w now outcome scanned) {q : ℕ} {lq : LogicalQueueInfo k}
    (hw : cfg.mapToWorker q = w) (hlq : s'.logicalQueuesInfo q = some lq)
    (hsize : lq.size ≠ 0) : lq.pendingVn.isSome := by
  subst w
  have hdeferred := hwaited.deferred q
  rw [hlq] at hdeferred
  cases hbefore : s.logicalQueuesInfo q with
  | none => simp [hbefore] at hdeferred
  | some before =>
      obtain ⟨phys, hport⟩ := exists_port hcoh hbefore
      obtain ⟨c, hc, hcandidate⟩ := exists_candidate hcoh hport
      rw [hwaited.state_eq] at hlq
      exact hwaited.blocked.pending c hc q lq hcandidate hlq hsize

/-- A scan changes nothing where every non-empty queue is pending. -/
theorem Waited.eq_of_pending (hwaited : Waited cfg s s' w now outcome scanned)
    (hpending : ∀ q lq, cfg.mapToWorker q = w → s.logicalQueuesInfo q = some lq →
      lq.size ≠ 0 → lq.pendingVn.isSome) : s' = s := by
  have hsame : scanned.queues = s.logicalQueuesInfo := by
    funext q
    by_cases hw : cfg.mapToWorker q = w
    · have hdeferred := hwaited.blocked.deferred q
      cases hbefore : s.logicalQueuesInfo q with
      | none =>
          rw [hbefore] at hdeferred
          cases hafter : scanned.queues q with
          | none => rfl
          | some lq' => simp [hafter] at hdeferred
      | some lq =>
          rw [hbefore] at hdeferred
          cases hafter : scanned.queues q with
          | none => simp [hafter] at hdeferred
          | some lq' =>
              rw [hafter, Option.rel_some_some] at hdeferred
              rw [hdeferred.kept]
              by_cases hsize : lq.size = 0
              · exact Or.inr hsize
              · exact Or.inl (hpending q lq hw hbefore hsize)
    · exact hwaited.frame q hw
  rw [hwaited.state_eq, hsame]

end Waited

variable [IngressPacket P]

theorem waited_of_scan (hcoh : s.Coherent cfg)
    (hwf : ∀ q p, s.port cfg q = some p → p.WellFormed) (hsize : (s.workersInfo w).size ≠ 0)
    {outcome : ScanOutcome P k} {log : Log P k}
    (hscan : s.scan w now = some (s', outcome, log)) (hnone : outcome.packet = none) :
    ∃ scanned, Waited cfg s s' w now outcome scanned := by
  have hready := fun q => not_ready_of_waited (q := q) hcoh hwf hscan (by
    rintro q v qe rfl
    simp [ScanOutcome.packet] at hnone)
  have hwfw : ∀ q p, (s.workersInfo w).port s.logicalQueuesInfo q = some p → p.WellFormed :=
    fun q p hp => hwf q p (port_of_worker hcoh hp).2
  cases scan_cases hscan with
  | idle hworker => exact absurd hworker hsize
  | output => simp [ScanOutcome.packet] at hnone
  | @waited scanned _ hloop hselected =>
      have hspec : (s.workersInfo w).Scanned now cfg.vnWeights
          (List.range (s.workersInfo w).logicalQueueIds.length) s.logicalQueuesInfo scanned :=
        WorkerInfo.scanLoop_scanned hwfw hloop
      refine ⟨scanned, rfl, rfl, WorkerInfo.scanLoop_blocked hwfw hloop hselected, ?_, hready, ?_⟩
      · intro q hw
        exact (hspec.frame q fun hmem => hw ((hcoh.mem_ids w q).mp hmem).2).1
      · intro q lq hw hlq hsize'
        subst w
        obtain ⟨phys, hport⟩ := exists_port hcoh hlq
        obtain ⟨c, hc, hcandidate⟩ := exists_candidate hcoh hport
        exact scanLoop_wakeTime hwfw hloop hselected hc hcandidate hlq hsize'

/-- The non-empty queues of a worker. -/
def queued (s : QueueingLogicVN P m k) (w : Fin m) : Finset ℕ :=
  (s.workersInfo w).logicalQueueIds.toFinset.filter fun q => s.queueSize q ≠ 0

omit [IngressPacket P] in
theorem exists_first_opening (hcoh : s.Coherent cfg) (hsize : (s.workersInfo w).size ≠ 0)
    (now : Ticks) :
    ∃ q lq, cfg.mapToWorker q = w ∧ s.logicalQueuesInfo q = some lq ∧ lq.size ≠ 0 ∧
      ∀ q' lq', cfg.mapToWorker q' = w → s.logicalQueuesInfo q' = some lq' → lq'.size ≠ 0 →
        lq.opening now ≤ lq'.opening now := by
  have hqueued : ∀ q lq, s.logicalQueuesInfo q = some lq →
      (q ∈ s.queued w ↔ cfg.mapToWorker q = w ∧ lq.size ≠ 0) := by
    intro q lq hlq
    rw [queued, Finset.mem_filter, List.mem_toFinset, hcoh.mem_ids, hlq]
    simp [queueSize, hlq]
  have hnonempty : (s.queued w).Nonempty := by
    by_contra hempty
    rw [Finset.not_nonempty_iff_eq_empty, queued, Finset.filter_eq_empty_iff] at hempty
    apply hsize
    rw [hcoh.size_eq w, List.sum_eq_zero_iff]
    intro n hn
    obtain ⟨q, hq, rfl⟩ := List.mem_map.mp hn
    exact not_not.mp (hempty (List.mem_toFinset.mpr hq))
  obtain ⟨q, hq, hmin⟩ := (s.queued w).exists_min_image
    (fun q => ((s.logicalQueuesInfo q).map fun lq => lq.opening now).getD 0) hnonempty
  have hregistered : (s.logicalQueuesInfo q).isSome :=
    ((hcoh.mem_ids w q).mp (List.mem_toFinset.mp (Finset.mem_filter.mp hq).1)).1
  obtain ⟨lq, hlq⟩ := Option.isSome_iff_exists.mp hregistered
  obtain ⟨hw, hne⟩ := (hqueued q lq hlq).mp hq
  refine ⟨q, lq, hw, hlq, hne, fun q' lq' hw' hlq' hne' => ?_⟩
  have hle := hmin q' ((hqueued q' lq' hlq').mpr ⟨hw', hne'⟩)
  simpa [hlq, hlq'] using hle

omit [IngressPacket P] in
/-- The buckets of a worker with packets open first at an exact instant, and a scan
without an output ends with the last tick up to it. -/
theorem Waited.exists_opening (hcoh : s.Coherent cfg) (hsize : (s.workersInfo w).size ≠ 0)
    (hrate : ∀ q lq, cfg.mapToWorker q = w → s.logicalQueuesInfo q = some lq → lq.size ≠ 0 →
      0 < lq.dequeueRateBps)
    {outcome : ScanOutcome P k} {scanned : ScanState P k}
    (hwaited : Waited cfg s s' w now outcome scanned) :
    ∃ r : ℚ, IsLeast (s.openings cfg w now) r ∧
      outcome = .waitUntil ((⌊r⌋ : Ticks) : WithTop Ticks) := by
  have hblocked : ∀ q lq, cfg.mapToWorker q = w → s.logicalQueuesInfo q = some lq →
      lq.size ≠ 0 → lq.tau < lq.decayedLevel now := by
    intro q lq hw hlq hne
    by_contra hle
    exact hwaited.not_ready q hw ((ready_iff hcoh).mpr ⟨lq, hlq, hne, not_lt.mp hle⟩)
  obtain ⟨q, lq, hw, hlq, hne, hmin⟩ := exists_first_opening hcoh hsize now
  have hr := hrate q lq hw hlq hne
  have hb := hblocked q lq hw hlq hne
  refine ⟨lq.opening now, ⟨⟨lq.le_opening hr hb, q, lq, hw, hlq, hne, ?_⟩, ?_⟩, ?_⟩
  · exact (lq.levelAt_le_iff hr _).mpr (le_refl _)
  · rintro r ⟨-, q', lq', hw', hlq', hne', hlevel⟩
    have hopen : lq'.opening now ≤ r :=
      (LogicalQueueInfo.levelAt_le_iff (hrate q' lq' hw' hlq' hne') r).mp hlevel
    exact (hmin q' lq' hw' hlq' hne').trans hopen
  · rw [hwaited.outcome_eq, ← lq.wakeTime_eq_floor hr hb]
    congr 1
    apply le_antisymm (hwaited.wake_le q lq hw hlq hne)
    cases hwaited.blocked.wake with
    | inl hnone => rw [hnone]; exact le_top
    | inr hsome =>
        obtain ⟨c, -, q', lq', hcandidate, hlq', hne', hwake⟩ := hsome
        have hw' := ((hcoh.mem_ids w q').mp (List.mem_of_getElem? hcandidate)).2
        rw [hwake, lq.wakeTime_eq_floor hr hb,
          lq'.wakeTime_eq_floor (hrate q' lq' hw' hlq' hne') (hblocked q' lq' hw' hlq' hne'),
          WithTop.coe_le_coe]
        exact Int.floor_le_floor (hmin q' lq' hw' hlq' hne')

/-! ## The contract of a scan -/

/-- What the comments on the worker and the queue layer promise of one scan, up to the
wake-up time. -/
structure ScanContract (cfg : Config m k) (s s' : QueueingLogicVN P m k) (w : Fin m)
    (now : Ticks) (outcome : ScanOutcome P k) : Prop where
  output_iff : outcome.packet.isSome ↔ ∃ q, cfg.mapToWorker q = w ∧ s.Ready cfg now q
  first : ∀ q v qe, outcome = .output q v qe →
    ∃ j, CyclicScan.First (s.workersInfo w).logicalQueueIds (s.workersInfo w).workerRrPtr
        (s.Ready cfg now) j q ∧
      (s'.workersInfo w).workerRrPtr = (j + 1) % (s.workersInfo w).logicalQueueIds.length
  kept : outcome.packet = none → s'.workersInfo = s.workersInfo ∧
    ∀ q, Option.Rel LogicalQueueInfo.SameLevel (s.logicalQueuesInfo q) (s'.logicalQueuesInfo q)
  pending : outcome.packet = none → ∀ q lq, cfg.mapToWorker q = w →
    s'.logicalQueuesInfo q = some lq → lq.size ≠ 0 → lq.pendingVn.isSome
  repeated : outcome.packet = none → ∀ t s'' outcome' log,
    s'.scan w t = some (s'', outcome', log) → outcome'.packet = none → s'' = s'
  opening : outcome.packet = none → ∃ r : ℚ, IsLeast (s.openings cfg w now) r ∧
    outcome = .waitUntil ((⌊r⌋ : Ticks) : WithTop Ticks)

/-- The clock readings from `now` on at which a scan of worker `w` dequeues a packet. -/
def releaseTimes (s : QueueingLogicVN P m k) (w : Fin m) (now : Ticks) : Set Ticks :=
  {t | now ≤ t ∧ ∃ s' q v qe log, s.scan w t = some (s', .output q v qe, log)}

/-- The contract with the wake-up time: a scan without an output sleeps until the first
clock reading at which a scan dequeues. -/
structure WorkConserving (cfg : Config m k) (s s' : QueueingLogicVN P m k) (w : Fin m)
    (now : Ticks) (outcome : ScanOutcome P k) : Prop
    extends ScanContract cfg s s' w now outcome where
  wake : outcome.packet = none → ∃ deadline : Ticks,
    outcome = .waitUntil deadline ∧ IsLeast (s'.releaseTimes w now) deadline

omit [IngressPacket P] in
theorem exists_output (outcome : ScanOutcome P k) :
    outcome.packet.isSome ↔ ∃ q v qe, outcome = .output q v qe := by
  cases outcome <;> simp [ScanOutcome.packet]

theorem scan_outputs_iff (hcoh : s.Coherent cfg)
    (hwf : ∀ q p, s.port cfg q = some p → p.WellFormed) {outcome : ScanOutcome P k}
    {log : Log P k} (hscan : s.scan w now = some (s', outcome, log)) :
    outcome.packet.isSome ↔ ∃ q, cfg.mapToWorker q = w ∧ s.Ready cfg now q := by
  constructor
  · intro houtput
    obtain ⟨q, v, qe, rfl⟩ := (exists_output outcome).mp houtput
    obtain ⟨j, hfirst, -⟩ := scan_first hcoh hwf hscan
    obtain ⟨c, -, -, hget, hready, -⟩ := hfirst
    exact ⟨q, ((hcoh.mem_ids w q).mp (List.mem_of_getElem? hget)).2, hready⟩
  · intro hready
    obtain ⟨q, hw, hready⟩ := hready
    by_contra hnone
    refine not_ready_of_waited hcoh hwf hscan (fun q' v qe heq => hnone ?_) hw hready
    exact (exists_output outcome).mpr ⟨q', v, qe, heq⟩

theorem mem_releaseTimes (hcoh : s.Coherent cfg)
    (hwf : ∀ q p, s.port cfg q = some p → p.WellFormed) (t : Ticks) :
    t ∈ s.releaseTimes w now ↔ (t : ℚ) ∈ s.openings cfg w now := by
  rw [mem_openings hcoh]
  refine and_congr_right fun _ => ?_
  obtain ⟨s', outcome, log, hscan⟩ := scan_isSome hcoh hwf w t
  rw [← scan_outputs_iff hcoh hwf hscan, exists_output]
  constructor
  · intro hreleased
    obtain ⟨s'', q, v, qe, log', hscan'⟩ := hreleased
    rw [hscan, Option.some.injEq, Prod.mk.injEq, Prod.mk.injEq] at hscan'
    exact ⟨q, v, qe, hscan'.2.1⟩
  · intro houtput
    obtain ⟨q, v, qe, rfl⟩ := houtput
    exact ⟨s', q, v, qe, log, hscan⟩

theorem scanContract_of_scan (hcoh : s.Coherent cfg)
    (hwf : ∀ q p, s.port cfg q = some p → p.WellFormed) (hsize : (s.workersInfo w).size ≠ 0)
    (hrate : ∀ q lq, cfg.mapToWorker q = w → s.logicalQueuesInfo q = some lq → lq.size ≠ 0 →
      0 < lq.dequeueRateBps)
    {outcome : ScanOutcome P k} {log : Log P k}
    (hscan : s.scan w now = some (s', outcome, log)) :
    ScanContract cfg s s' w now outcome where
  output_iff := scan_outputs_iff hcoh hwf hscan
  first := by
    rintro q v qe rfl
    obtain ⟨j, hfirst, hptr, -⟩ := scan_first hcoh hwf hscan
    exact ⟨j, hfirst, hptr⟩
  kept := by
    intro hnone
    obtain ⟨scanned, hwaited⟩ := waited_of_scan hcoh hwf hsize hscan hnone
    refine ⟨by rw [hwaited.state_eq], fun q => ?_⟩
    have hdeferred := hwaited.deferred q
    generalize s.logicalQueuesInfo q = before at hdeferred
    generalize s'.logicalQueuesInfo q = after at hdeferred
    cases hdeferred with
    | none => exact .none
    | some hmore => exact .some hmore.same
  pending := by
    intro hnone q lq hw hlq hne
    obtain ⟨scanned, hwaited⟩ := waited_of_scan hcoh hwf hsize hscan hnone
    exact hwaited.pending hcoh hw hlq hne
  repeated := by
    intro hnone t s'' outcome' log' hscan' hnone'
    obtain ⟨scanned, hwaited⟩ := waited_of_scan hcoh hwf hsize hscan hnone
    have hadvances := (scan_spec hcoh hwf hscan).advances
    have hsize' : (s'.workersInfo w).size ≠ 0 := by rwa [hwaited.state_eq]
    obtain ⟨scanned', hwaited'⟩ := waited_of_scan hadvances.coherent
      (hadvances.wellFormed hwf) hsize' hscan' hnone'
    exact hwaited'.eq_of_pending fun q lq hw hlq hne => hwaited.pending hcoh hw hlq hne
  opening := by
    intro hnone
    obtain ⟨scanned, hwaited⟩ := waited_of_scan hcoh hwf hsize hscan hnone
    exact hwaited.exists_opening hcoh hsize hrate

omit [IngressPacket P] in
/-- The instants at which the buckets open are read off the levels and the sizes. -/
theorem openings_congr
    (hsame : ∀ q, Option.Rel LogicalQueueInfo.SameLevel (s.logicalQueuesInfo q)
      (s'.logicalQueuesInfo q)) : s'.openings cfg w now = s.openings cfg w now := by
  ext r
  simp only [openings, Set.mem_ofPred_eq]
  refine and_congr_right fun _ => exists_congr fun q => ?_
  have hq := hsame q
  generalize s.logicalQueuesInfo q = before at hq
  generalize s'.logicalQueuesInfo q = after at hq
  cases hq with
  | none => simp
  | some hlq =>
      simp only [Option.some.injEq, exists_and_left, exists_eq_left', hlq.size, hlq.tau,
        LogicalQueueInfo.levelAt, hlq.X, hlq.LCT, hlq.rate]

section Runs

variable {capacity : ℕ} {ops : List (Op P m)} {history : List (Call P m k)}

/-- In every reachable state the contract holds of the scan of a worker whose non-empty
queues have positive rates.  The wake-up time is right if and only if a queue is ready
or the first opening falls on a tick of the clock. -/
theorem work_conserving_iff (hrun : run cfg (initial capacity) ops = some (s, history))
    (hsize : (s.workersInfo w).size ≠ 0)
    (hrate : ∀ q lq, cfg.mapToWorker q = w → s.logicalQueuesInfo q = some lq → lq.size ≠ 0 →
      0 < lq.dequeueRateBps) (now : Ticks) :
    ∃ s' outcome log, s.scan w now = some (s', outcome, log) ∧
      ScanContract cfg s s' w now outcome ∧
      (WorkConserving cfg s s' w now outcome ↔
        (∃ q, cfg.mapToWorker q = w ∧ s.Ready cfg now q) ∨
          ∃ n : ℤ, IsLeast (s.openings cfg w now) n) := by
  have hcoh := run_coherent hrun
  have hwf := run_wellFormed hrun
  obtain ⟨s', outcome, log, hscan⟩ := scan_isSome hcoh hwf w now
  have hcontract := scanContract_of_scan hcoh hwf hsize hrate hscan
  have hadvances := (scan_spec hcoh hwf hscan).advances
  refine ⟨s', outcome, log, hscan, hcontract, ?_⟩
  rw [← hcontract.output_iff, or_iff_not_imp_left, Option.not_isSome_iff_eq_none]
  have hwake : outcome.packet = none →
      ((∃ deadline : Ticks, outcome = .waitUntil deadline ∧
          IsLeast (s'.releaseTimes w now) deadline) ↔
        ∃ n : ℤ, IsLeast (s.openings cfg w now) n) := by
    intro hnone
    obtain ⟨r, hr, houtcome⟩ := hcontract.opening hnone
    have hreleases : s'.releaseTimes w now = {t : ℤ | (t : ℚ) ∈ s.openings cfg w now} := by
      ext t
      rw [mem_releaseTimes hadvances.coherent (hadvances.wellFormed hwf),
        openings_congr (hcontract.kept hnone).2]
      rfl
    rw [hreleases, ← isLeast_floor_iff hr]
    constructor
    · rintro ⟨deadline, hdeadline, hleast⟩
      rw [houtcome, ScanOutcome.waitUntil.injEq, WithTop.coe_inj] at hdeadline
      rwa [hdeadline]
    · intro hleast
      exact ⟨⌊r⌋, houtcome, hleast⟩
  constructor
  · intro hconserving hnone
    exact (hwake hnone).mp (hconserving.wake hnone)
  · intro htick
    exact ⟨hcontract, fun hnone => (hwake hnone).mpr (htick hnone)⟩

end Runs

/-! ## A wake-up time between two ticks -/

/-- At 30 Mbps five packets of 1514 bytes leave at once, and the sixth must wait for
403733 nanoseconds and a third. -/
def sixAtThirtyMbps : List (Op ℕ 1) :=
  .setRate 0 30000000 1 :: List.replicate 6 (.pushFront 0 0 1 (some 1514) 1) ++
    List.replicate 5 (.scan (Fin.last 0) 2)

theorem exists_early_wake_up :
    ∃ s history s' outcome log s'' outcome' log',
      run Config.single (initial 64) sixAtThirtyMbps = some (s, history) ∧
      (s.workersInfo (Fin.last 0)).size ≠ 0 ∧
      (∀ q lq, Config.single.mapToWorker q = Fin.last 0 → s.logicalQueuesInfo q = some lq →
        lq.size ≠ 0 → 0 < lq.dequeueRateBps) ∧
      s.scan (Fin.last 0) 2 = some (s', outcome, log) ∧
      outcome.deadline = some ((403735 : Ticks) : WithTop Ticks) ∧
      s'.scan (Fin.last 0) 403735 = some (s'', outcome', log') ∧
      outcome'.deadline = some ((403735 : Ticks) : WithTop Ticks) := by
  have heval : ((run Config.single (initial 64) sixAtThirtyMbps).bind fun r =>
      (r.1.logicalQueuesInfo 0).bind fun lq =>
        (r.1.scan (Fin.last 0) 2).bind fun first =>
          (first.1.scan (Fin.last 0) 403735).map fun second =>
            (((r.1.workersInfo (Fin.last 0)).size, (r.1.workersInfo (Fin.last 0)).logicalQueueIds,
              lq.dequeueRateBps), first.2.1.deadline, second.2.1.deadline)) =
      some ((1, [0], 30000000), some ((403735 : Ticks) : WithTop Ticks),
        some ((403735 : Ticks) : WithTop Ticks)) := by
    decide +kernel
  obtain ⟨⟨s, history⟩, hrun, heval⟩ := Option.bind_eq_some_iff.mp heval
  obtain ⟨lq, hlq, heval⟩ := Option.bind_eq_some_iff.mp heval
  obtain ⟨⟨s', outcome, log⟩, hscan, heval⟩ := Option.bind_eq_some_iff.mp heval
  obtain ⟨⟨s'', outcome', log'⟩, hscan', heq⟩ := Option.map_eq_some_iff.mp heval
  simp only [Prod.mk.injEq] at heq
  obtain ⟨⟨hsize, hids, hrate⟩, hdeadline, hdeadline'⟩ := heq
  refine ⟨s, history, s', outcome, log, s'', outcome', log', hrun, ?_, ?_, hscan,
    hdeadline, hscan', hdeadline'⟩
  · rw [hsize]
    exact Nat.one_ne_zero
  intro q lq' hw hlq' _
  have hmem := ((run_coherent hrun).mem_ids (Fin.last 0) q).mpr ⟨by simp [hlq'], hw⟩
  rw [hids, List.mem_singleton] at hmem
  subst q
  obtain rfl : lq = lq' := Option.some.inj (hlq.symm.trans hlq')
  rw [hrate]
  norm_num

/-- The worker wakes a third of a nanosecond early, and the scan then computes the same
wake-up time again. -/
theorem not_work_conserving :
    ¬∀ (cfg : Config 1 1) capacity (ops : List (Op ℕ 1)) s history w now s' outcome log,
      run cfg (initial capacity) ops = some (s, history) → (s.workersInfo w).size ≠ 0 →
      (∀ q lq, cfg.mapToWorker q = w → s.logicalQueuesInfo q = some lq → lq.size ≠ 0 →
        0 < lq.dequeueRateBps) →
      s.scan w now = some (s', outcome, log) → WorkConserving cfg s s' w now outcome := by
  intro hall
  obtain ⟨s, history, s', outcome, log, s'', outcome', log', hrun, hsize, hrate, hscan,
    hdeadline, hscan', hdeadline'⟩ := exists_early_wake_up
  have hconserving := hall Config.single 64 _ s history _ 2 s' outcome log hrun hsize hrate hscan
  have hnone : outcome.packet = none := by
    cases outcome with
    | output => simp [ScanOutcome.deadline] at hdeadline
    | wait => rfl
    | waitUntil => rfl
  obtain ⟨deadline, rfl, ⟨-, hreleased⟩, -⟩ := hconserving.wake hnone
  rw [ScanOutcome.deadline, Option.some.injEq, WithTop.coe_inj] at hdeadline
  subst deadline
  obtain ⟨s₂, q, v, qe, log₂, hscan₂⟩ := hreleased
  rw [hscan', Option.some.injEq, Prod.mk.injEq, Prod.mk.injEq] at hscan₂
  rw [hscan₂.2.1] at hdeadline'
  simp [ScanOutcome.deadline] at hdeadline'

theorem work_conserving_iff_early_wake_up :
    ∃ s history s' outcome log,
      run Config.single (initial 64) sixAtThirtyMbps = some (s, history) ∧
      s.scan (Fin.last 0) 2 = some (s', outcome, log) ∧
      ScanContract Config.single s s' (Fin.last 0) 2 outcome ∧
      (WorkConserving Config.single s s' (Fin.last 0) 2 outcome ↔
        (∃ q, Config.single.mapToWorker q = Fin.last 0 ∧ s.Ready Config.single 2 q) ∨
          ∃ n : ℤ, IsLeast (s.openings Config.single (Fin.last 0) 2) n) := by
  obtain ⟨s, history, -, -, -, -, -, -, hrun, hsize, hrate, -⟩ := exists_early_wake_up
  obtain ⟨s', outcome, log, hscan, hlaw⟩ := work_conserving_iff hrun hsize hrate 2
  exact ⟨s, history, s', outcome, log, hrun, hscan, hlaw⟩

end QueueingLogicVN

end Cmcs
