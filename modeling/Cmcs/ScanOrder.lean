import Cmcs.QueueingRun
import Mathlib.Tactic

/-!
# Which logical queue a scan serves

A scan serves the first non-empty queue, in cyclic order from `worker_rr_ptr`,
whose bucket lets a packet pass.  The queues which it goes past keep their level
and their packets, so whether a queue is ready can be read off the state before
the scan.
-/

namespace Cmcs

variable {P : Type} {m k : ℕ}

namespace LogicalQueueInfo

/-- Nothing which the rate check or a dequeue reads has changed. -/
structure SameLevel (lq lq' : LogicalQueueInfo k) : Prop where
  X : lq'.X = lq.X
  LCT : lq'.LCT = lq.LCT
  rate : lq'.dequeueRateBps = lq.dequeueRateBps
  tau : lq'.tau = lq.tau
  size : lq'.size = lq.size
  vnSize : ∀ i, (lq'.vnQueues i).size = (lq.vnQueues i).size

variable {lq lq' lq'' : LogicalQueueInfo k}

theorem SameLevel.refl (lq : LogicalQueueInfo k) : SameLevel lq lq :=
  ⟨rfl, rfl, rfl, rfl, rfl, fun _ => rfl⟩

theorem SameLevel.trans (hfirst : SameLevel lq lq') (hsecond : SameLevel lq' lq'') :
    SameLevel lq lq'' :=
  ⟨hsecond.X.trans hfirst.X, hsecond.LCT.trans hfirst.LCT, hsecond.rate.trans hfirst.rate,
    hsecond.tau.trans hfirst.tau, hsecond.size.trans hfirst.size,
    fun i => (hsecond.vnSize i).trans (hfirst.vnSize i)⟩

theorem SameLevel.decayedLevel (hsame : SameLevel lq lq') (now : Ticks) :
    lq'.decayedLevel now = lq.decayedLevel now := by
  rw [LogicalQueueInfo.decayedLevel, hsame.X, hsame.LCT, hsame.rate]
  rfl

theorem SameLevel.wakeTime (hsame : SameLevel lq lq') (now : Ticks) :
    lq'.wakeTime now = lq.wakeTime now := by
  rw [LogicalQueueInfo.wakeTime, hsame.rate, hsame.tau, hsame.decayedLevel]
  rfl

end LogicalQueueInfo

namespace Port

/-- The queue holds packets and its bucket lets one pass. -/
def Compliant (now : Ticks) (p : Port P k) : Prop :=
  p.info.size ≠ 0 ∧ p.info.decayedLevel now ≤ p.info.tau

end Port

/-! ## One visit -/

section Visit

variable {p : Port P k} {now : Ticks}

theorem decision_same (hwf : p.WellFormed) {sel : Fin k} {lq : LogicalQueueInfo k}
    {events : List (Event P k)}
    (hdecision : p.info.decision now p.phys = some (sel, lq, events)) :
    p.info.SameLevel lq ∧ lq.pendingVn = some sel := by
  unfold LogicalQueueInfo.decision at hdecision
  cases hpending : p.info.pendingVn with
  | some v =>
      simp only [hpending, Option.some.injEq, Prod.mk.injEq] at hdecision
      rcases hdecision with ⟨rfl, rfl, -⟩
      exact ⟨.refl _, hpending⟩
  | none =>
      simp only [hpending] at hdecision
      rcases Option.bind_eq_some_iff.mp hdecision with ⟨⟨choice, lq'⟩, hselect, heq⟩
      simp only [Option.some.injEq, Prod.mk.injEq] at heq
      rcases heq with ⟨rfl, rfl, -⟩
      have hspec := (p.info.sweep now).selectVn_selected (hwf.sweep now).nodup hselect
      rw [hspec.result]
      refine ⟨?_, rfl⟩
      constructor <;> simp [LogicalQueueInfo.sweep_eq]

/-- A visit ends with a deferral, which leaves the queue as it is but for the
decision, or with a packet. -/
inductive VisitCases (p : Port P k) (now : Ticks) (visit : Visit P k) : Prop
  | deferred (hserved : visit.served = none) (hblocked : p.info.tau < p.info.decayedLevel now)
      (hsame : p.info.SameLevel visit.queue) (hpending : visit.queue.pendingVn.isSome)
      (hwake : visit.wakeTime = p.info.wakeTime now)
  | served (v : Fin k) (hserved : visit.served = some v)
      (hlevel : p.info.decayedLevel now ≤ p.info.tau)

theorem visit_cases (hwf : p.WellFormed) {visit : Visit P k}
    (hvisit : p.info.visit now p.phys = some visit) : VisitCases p now visit := by
  unfold LogicalQueueInfo.visit at hvisit
  rcases Option.bind_eq_some_iff.mp hvisit with ⟨⟨sel, lq, events⟩, hdecision, hrest⟩
  rcases Option.bind_eq_some_iff.mp hrest with ⟨head, -, houtcome⟩
  obtain ⟨hsame, hpending⟩ := decision_same hwf hdecision
  split at houtcome
  next hblocked =>
    rw [hsame.tau, hsame.decayedLevel] at hblocked
    simp only [Option.some.injEq] at houtcome
    subst visit
    exact .deferred rfl hblocked hsame (by simp [hpending]) (hsame.wakeTime now)
  next hpasses =>
    rw [hsame.tau, hsame.decayedLevel, not_lt] at hpasses
    simp only [Option.some.injEq] at houtcome
    subst visit
    exact .served sel rfl hpasses

end Visit

/-! ## The scan loop -/

namespace WorkerInfo

variable (wInfo : WorkerInfo P k) (now : Ticks)

def Ready (queues : ℕ → Option (LogicalQueueInfo k)) (q : ℕ) : Prop :=
  ∃ p, wInfo.port queues q = some p ∧ p.Compliant now

/-- The candidate of the scan loop at offset `c`. -/
def candidate (c : ℕ) : Option ℕ :=
  wInfo.logicalQueueIds[(wInfo.workerRrPtr + c) % wInfo.logicalQueueIds.length]?

/-- What the loop has found out about the candidates of `cs`. -/
structure Searched (cs : List ℕ) (queues : ℕ → Option (LogicalQueueInfo k))
    (scanned : ScanState P k) : Prop where
  waited : scanned.selected = none →
    ∀ c ∈ cs, ∀ q, wInfo.candidate c = some q → ¬wInfo.Ready now queues q
  served : ∀ j q v, scanned.selected = some (j, q, v) →
    ∃ before c after, cs = before ++ c :: after ∧
      j = (wInfo.workerRrPtr + c) % wInfo.logicalQueueIds.length ∧
      wInfo.candidate c = some q ∧ wInfo.Ready now queues q ∧
      ∀ passed ∈ before, ∀ q', wInfo.candidate passed = some q' → ¬wInfo.Ready now queues q'

variable {wInfo now} {cs : List ℕ} {c qid : ℕ} {queues : ℕ → Option (LogicalQueueInfo k)}
variable {scanned : ScanState P k} {p : Port P k} {visit : Visit P k}

theorem ready_of_port (hport : wInfo.port queues qid = some p) :
    wInfo.Ready now queues qid ↔ p.Compliant now := by
  unfold Ready
  rw [hport]
  simp

theorem ready_update (hport : wInfo.port queues qid = some p)
    (hsame : p.info.SameLevel visit.queue) (q : ℕ) :
    wInfo.Ready now (Function.update queues qid (some visit.queue)) q ↔
      wInfo.Ready now queues q := by
  unfold Ready
  rw [port_update]
  by_cases hq : q = qid
  · subst q
    have hphys := (wInfo.port_eq_some.mp hport).2
    simp only [if_true, hphys, hport, Option.map_some, Option.some.injEq,
      exists_eq_left', Port.Compliant, hsame.size, hsame.tau, hsame.decayedLevel]
  · rw [if_neg hq]

theorem Searched.congr {queues' : ℕ → Option (LogicalQueueInfo k)}
    (hready : ∀ q, wInfo.Ready now queues' q ↔ wInfo.Ready now queues q)
    (hsearched : wInfo.Searched now cs queues' scanned) :
    wInfo.Searched now cs queues scanned := by
  constructor
  · intro hnone c hc q hq
    rw [← hready]
    exact hsearched.waited hnone c hc q hq
  · intro j q v hselected
    obtain ⟨before, c, after, hcs, hj, hc, hnow, hbefore⟩ := hsearched.served j q v hselected
    refine ⟨before, c, after, hcs, hj, hc, (hready q).mp hnow, fun passed hpassed q' hq' => ?_⟩
    rw [← hready]
    exact hbefore passed hpassed q' hq'

theorem Searched.skip (hcandidate : wInfo.candidate c = some qid)
    (hready : ¬wInfo.Ready now queues qid) (hrest : wInfo.Searched now cs queues scanned) :
    wInfo.Searched now (c :: cs) queues scanned := by
  have hpassed : ∀ q', wInfo.candidate c = some q' → ¬wInfo.Ready now queues q' := by
    intro q' hq'
    rw [hcandidate, Option.some.injEq] at hq'
    rwa [← hq']
  constructor
  · intro hnone c' hc'
    cases List.mem_cons.mp hc' with
    | inl heq => exact heq ▸ hpassed
    | inr hmem => exact hrest.waited hnone c' hmem
  · intro j q v hselected
    obtain ⟨before, c', after, rfl, hj, hc', hq, hbefore⟩ := hrest.served j q v hselected
    refine ⟨c :: before, c', after, rfl, hj, hc', hq, ?_⟩
    intro passed hmem
    cases List.mem_cons.mp hmem with
    | inl heq => exact heq ▸ hpassed
    | inr hmem => exact hbefore passed hmem

theorem scanLoop_searched [IngressPacket P]
    (hwf : ∀ q p, wInfo.port queues q = some p → p.WellFormed)
    (hids : ∀ q ∈ wInfo.logicalQueueIds, (wInfo.physicalQueues q).isSome)
    (hscan : wInfo.scanLoop now cs queues = some scanned) :
    wInfo.Searched now cs queues scanned := by
  induction cs generalizing queues scanned with
  | nil =>
      simp only [scanLoop, Option.some.injEq] at hscan
      subst scanned
      exact ⟨fun _ c hc => by simp at hc, fun j q v hselected => by simp at hselected⟩
  | cons c cs ih =>
      cases wInfo.scanLoop_cons now hscan with
      | @empty qid lq _ hid hlq hsize hloop =>
          obtain ⟨phys, hphys⟩ :=
            Option.isSome_iff_exists.mp (hids qid (List.mem_of_getElem? hid))
          have hport : wInfo.port queues qid = some ⟨lq, phys⟩ :=
            wInfo.port_eq_some.mpr ⟨hlq, hphys⟩
          refine (ih hwf hloop).skip hid ?_
          rw [ready_of_port hport]
          exact fun hcompliant => hcompliant.1 hsize
      | @deferred qid p visit rest hid hport hsize hvisit hserved hloop =>
          have hp := hwf qid p hport
          cases visit_cases hp hvisit with
          | served v hsome => simp [hsome] at hserved
          | deferred _ hblocked hsame =>
              have hlater := port_update_wellFormed hwf hport (visit_visited hsize hp hvisit)
                hserved
              have hsearched := (ih hlater hloop).congr fun q => ready_update hport hsame q
              have hstep := hsearched.skip hid (by
                rw [ready_of_port hport]
                exact fun hcompliant => not_le.mpr hblocked hcompliant.2)
              exact ⟨hstep.waited, hstep.served⟩
      | @served qid p visit v hid hport hsize hvisit hserved =>
          refine ⟨fun hnone => by simp at hnone, fun j q v' hselected => ?_⟩
          simp only [Option.some.injEq, Prod.mk.injEq] at hselected
          obtain ⟨rfl, rfl, rfl⟩ := hselected
          cases visit_cases (hwf qid p hport) hvisit with
          | deferred hnone => simp [hnone] at hserved
          | served _ _ hlevel =>
              exact ⟨[], c, cs, rfl, rfl, hid, (ready_of_port hport).mpr ⟨hsize, hlevel⟩,
                fun passed hpassed => by simp at hpassed⟩

end WorkerInfo

namespace QueueingLogicVN

variable {cfg : Config m k} {s s' : QueueingLogicVN P m k} {w : Fin m} {now : Ticks} {q : ℕ}

/-- Queue `q` holds packets and its bucket lets one pass. -/
def Ready (cfg : Config m k) (s : QueueingLogicVN P m k) (now : Ticks) (q : ℕ) : Prop :=
  ∃ p, s.port cfg q = some p ∧ p.Compliant now

theorem ready_of_worker (hcoh : s.Coherent cfg) :
    (s.workersInfo w).Ready now s.logicalQueuesInfo q ↔
      cfg.mapToWorker q = w ∧ s.Ready cfg now q := by
  constructor
  · intro hready
    obtain ⟨p, hport, hcompliant⟩ := hready
    obtain ⟨hw, hport'⟩ := port_of_worker hcoh hport
    exact ⟨hw, p, hport', hcompliant⟩
  · intro hready
    obtain ⟨rfl, p, hport, hcompliant⟩ := hready
    exact ⟨p, hport, hcompliant⟩

theorem mem_before_of_range {n c passed : ℕ} {before after : List ℕ}
    (hrange : List.range n = before ++ c :: after) (hpassed : passed < c) :
    passed ∈ before := by
  have hc : c < n := by
    rw [← List.mem_range, hrange]
    simp
  have hsorted : (List.range n).Pairwise (· < ·) := List.pairwise_lt_range
  rw [hrange, List.pairwise_append, List.pairwise_cons] at hsorted
  have hmem : passed ∈ before ++ c :: after := by
    rw [← hrange, List.mem_range]
    omega
  cases List.mem_append.mp hmem with
  | inl hbefore => exact hbefore
  | inr hrest =>
      cases List.mem_cons.mp hrest with
      | inl heq => omega
      | inr hafter =>
          have hlt := hsorted.2.1.1 passed hafter
          omega

variable [IngressPacket P]

theorem searched_of_loop (hcoh : s.Coherent cfg)
    (hwf : ∀ q p, s.port cfg q = some p → p.WellFormed) {scanned : ScanState P k}
    (hloop : (s.workersInfo w).scanLoop now
      (List.range (s.workersInfo w).logicalQueueIds.length) s.logicalQueuesInfo =
        some scanned) :
    (s.workersInfo w).Searched now (List.range (s.workersInfo w).logicalQueueIds.length)
      s.logicalQueuesInfo scanned := by
  apply WorkerInfo.scanLoop_searched _ _ hloop
  · intro q p hport
    exact hwf q p (port_of_worker hcoh hport).2
  · intro q hq
    exact (hcoh.deques w q).mpr ((hcoh.mem_ids w q).mp hq)

/-- The packet comes from the first ready queue, and the pointer moves just past
it. -/
theorem scan_first (hcoh : s.Coherent cfg)
    (hwf : ∀ q p, s.port cfg q = some p → p.WellFormed) {v : Fin k} {qe : QE P} {log : Log P k}
    (hscan : s.scan w now = some (s', .output q v qe, log)) :
    ∃ j, CyclicScan.First (s.workersInfo w).logicalQueueIds (s.workersInfo w).workerRrPtr
        (s.Ready cfg now) j q ∧
      (s'.workersInfo w).workerRrPtr = (j + 1) % (s.workersInfo w).logicalQueueIds.length ∧
      (s'.workersInfo w).logicalQueueIds = (s.workersInfo w).logicalQueueIds := by
  cases scan_cases hscan with
  | @output scanned j _ _ p _ hworker hloop hselected hport hhead =>
      obtain ⟨before, c, after, hrange, hj, hcandidate, hready, hbefore⟩ :=
        (searched_of_loop hcoh hwf hloop).served j q v hselected
      have hc : c < (s.workersInfo w).logicalQueueIds.length := by
        rw [← List.mem_range, hrange]
        simp
      refine ⟨j, ⟨c, hc, hj, hj ▸ hcandidate, ((ready_of_worker hcoh).mp hready).2, ?_⟩, ?_, ?_⟩
      · intro passed hpassed q' hq' hready'
        have hmem := mem_before_of_range hrange hpassed
        have hw := ((hcoh.mem_ids w q').mp (List.mem_of_getElem? hq')).2
        exact hbefore passed hmem q' hq' ((ready_of_worker hcoh).mpr ⟨hw, hready'⟩)
      · simp [setWorker]
      · simp [setWorker]

/-- A scan without an output leaves no queue of the worker ready. -/
theorem not_ready_of_waited (hcoh : s.Coherent cfg)
    (hwf : ∀ q p, s.port cfg q = some p → p.WellFormed) {outcome : ScanOutcome P k}
    {log : Log P k} (hscan : s.scan w now = some (s', outcome, log))
    (hnone : ∀ q v qe, outcome ≠ .output q v qe) (hq : cfg.mapToWorker q = w) :
    ¬s.Ready cfg now q := by
  intro hready
  obtain ⟨p, hport, hcompliant⟩ := hready
  subst w
  cases scan_cases hscan with
  | idle hworker => exact hcompliant.1 (size_eq_zero_of_worker hcoh hport hworker)
  | waited hworker hloop hselected =>
      obtain ⟨c, hc, hcandidate⟩ := exists_candidate hcoh hport
      exact (searched_of_loop hcoh hwf hloop).waited hselected c hc q hcandidate
        ((ready_of_worker hcoh).mpr ⟨rfl, p, hport, hcompliant⟩)
  | output => exact absurd rfl (hnone _ _ _)

end QueueingLogicVN

end Cmcs
