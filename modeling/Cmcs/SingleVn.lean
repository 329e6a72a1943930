import Cmcs.QueueingRun
import Cmcs.RateLimitedFifo
import Mathlib.Tactic

/-!
# The scheduler with a single VN

With one weight `QueueingLogicVN` refines the rate-limited FIFO scheduler, as long
as its counters are exact integers.  The abstraction forgets colors, credits,
deficits, the active set and the pending decision; the two-phase selection has one
VN to choose, and it always returns.
-/

namespace Cmcs

open TransitionSystem

variable {P : Type} {m : ℕ}

/-- The one VN. -/
def onlyVn : Fin 1 := Fin.last 0

/-! ## What is forgotten -/

def QE.toFifo (qe : QE P) : Option P × ℕ := (qe.e, qe.pktSize)

def Port.toFifo (p : Port P 1) : FifoQueue P where
  packets := (p.phys onlyVn).map QE.toFifo
  capacity := (p.info.vnQueues onlyVn).capacity
  LCT := p.info.LCT
  X := p.info.X
  dequeueRateBps := p.info.dequeueRateBps
  tau := p.info.tau

def QueueingLogicVN.toFifo (cfg : Config m 1) (s : QueueingLogicVN P m 1) :
    RateLimitedFifo P m where
  capacity := s.capacity
  queues q := (s.port cfg q).map Port.toFifo
  workers w := ⟨(s.workersInfo w).logicalQueueIds, (s.workersInfo w).workerRrPtr⟩

/-- The VN and the color of a packet are dropped from the call. -/
def Op.toFifo : Op P m → FifoOp P m
  | .pushFront q _ _ item now => .push q item now
  | .scan w now => .scan w now
  | .setVnCapacity q _ c now => .setCapacity q c now
  | .setQueueCapacity q c now => .setCapacity q c now
  | .setCapacityForAll c => .setCapacityForAll c
  | .setRate q bps now => .setRate q bps now
  | .setRateForAll bps => .setRateForAll bps

def Result.toFifo : Result P 1 → FifoResult P
  | .pushed accepted => .pushed accepted
  | .scanned .wait => .wait
  | .scanned (.waitUntil nextWakeUpTime) => .waitUntil nextWakeUpTime
  | .scanned (.output q _ qe) => .output q qe.e
  | .done => .done

/-! ## One visit -/

section Visit

variable {p : Port P 1} {now : Ticks}

theorem packets_isEmpty (hwf : p.WellFormed) :
    p.toFifo.packets.isEmpty ↔ p.info.size = 0 := by
  have htotal := hwf.total
  have hsize := hwf.size_eq onlyVn
  rw [Fin.sum_univ_one] at htotal
  have hzero : (0 : Fin 1) = onlyVn := Subsingleton.elim _ _
  rw [hzero, hsize] at htotal
  simp [Port.toFifo, htotal]

theorem decision_toFifo (hwf : p.WellFormed) {sel : Fin 1} {lq : LogicalQueueInfo 1}
    {events : List (Event P 1)}
    (hdecision : p.info.decision now p.phys = some (sel, lq, events)) :
    Port.toFifo ⟨lq, p.phys⟩ = p.toFifo := by
  unfold LogicalQueueInfo.decision at hdecision
  cases hpending : p.info.pendingVn with
  | some v =>
      simp only [hpending, Option.some.injEq, Prod.mk.injEq] at hdecision
      rcases hdecision with ⟨-, rfl, -⟩
      rfl
  | none =>
      simp only [hpending] at hdecision
      rcases Option.bind_eq_some_iff.mp hdecision with ⟨⟨choice, lq'⟩, hselect, heq⟩
      simp only [Option.some.injEq, Prod.mk.injEq] at heq
      rcases heq with ⟨-, rfl, -⟩
      have hspec := (p.info.sweep now).selectVn_selected (hwf.sweep now).nodup hselect
      rw [hspec.result]
      simp only [Port.toFifo, LogicalQueueInfo.sweep_eq]

/-- What one visit of a non-empty queue amounts to. -/
inductive VisitSim (p : Port P 1) (now : Ticks) (visit : Visit P 1) : Prop
  | blocked (hserved : visit.served = none) (hpop : p.toFifo.pop now = none)
      (hsame : Port.toFifo ⟨visit.queue, p.phys⟩ = p.toFifo)
      (hwake : visit.wakeTime = p.toFifo.releaseTime now)
  | served (qe : QE P) (hserved : visit.served = some onlyVn)
      (hhead : (p.phys onlyVn).head? = some qe)
      (hpop : p.toFifo.pop now =
        some (qe.e, (Port.departed ⟨visit.queue, p.phys⟩ onlyVn now).toFifo))

theorem visit_sim (hwf : p.WellFormed) {visit : Visit P 1}
    (hvisit : p.info.visit now p.phys = some visit) : VisitSim p now visit := by
  unfold LogicalQueueInfo.visit at hvisit
  rcases Option.bind_eq_some_iff.mp hvisit with ⟨⟨sel, lq, events⟩, hdecision, hrest⟩
  rcases Option.bind_eq_some_iff.mp hrest with ⟨qe, hhead, houtcome⟩
  obtain rfl : sel = onlyVn := Subsingleton.elim _ _
  have hsame := decision_toFifo hwf hdecision
  obtain ⟨rest, hphys⟩ := List.head?_eq_some_iff.mp hhead
  have hpackets : p.toFifo.packets = (qe.e, qe.pktSize) :: rest.map QE.toFifo := by
    simp [Port.toFifo, hphys, QE.toFifo]
  have hlevel : p.toFifo.level now = lq.decayedLevel now := by
    rw [← hsame]
    rfl
  have htau : p.toFifo.tau = lq.tau := by
    rw [← hsame]
    rfl
  have hrate : p.toFifo.dequeueRateBps = lq.dequeueRateBps := by
    rw [← hsame]
    rfl
  have hcapacity : p.toFifo.capacity = (lq.vnQueues onlyVn).capacity := by
    rw [← hsame]
    rfl
  split at houtcome
  next hblocked =>
    simp only [Option.some.injEq] at houtcome
    subst visit
    refine .blocked rfl ?_ hsame ?_
    · rw [FifoQueue.pop, hpackets]
      simp only [hlevel, htau]
      exact if_neg (not_le.mpr hblocked)
    · rw [FifoQueue.releaseTime, LogicalQueueInfo.wakeTime, hlevel, htau, hrate, hpackets]
      simp
  next hpasses =>
    simp only [Option.some.injEq] at houtcome
    subst visit
    have hdeparted : (Port.departed ⟨lq.conform now qe.pktSize, p.phys⟩ onlyVn now).toFifo =
        { packets := rest.map QE.toFifo
          capacity := (lq.vnQueues onlyVn).capacity
          LCT := now
          X := max 0 (lq.decayedLevel now) + qe.pktSize * 8
          dequeueRateBps := lq.dequeueRateBps
          tau := lq.tau } := by
      simp [Port.toFifo, Port.departed, LogicalQueueInfo.depart_eq, LogicalQueueInfo.conform,
        hphys]
    refine .served qe rfl hhead ?_
    rw [FifoQueue.pop, hpackets, hdeparted]
    simp only [hlevel, htau, hrate, hcapacity]
    exact if_pos (not_lt.mp hpasses)

end Visit

/-! ## One scan -/

/-- What the scan loop over the candidates `order` amounts to, for the FIFO
queues `fifo`. -/
inductive LoopSim (wInfo : WorkerInfo P 1) (fifo : RateLimitedFifo P m) (now : Ticks)
    (order : List ℕ) (scanned : ScanState P 1) : Prop
  | blocked (hselected : scanned.selected = none) (hpop : order.findSome? (fifo.pop now) = none)
      (hsame : ∀ q ∈ wInfo.logicalQueueIds,
        (wInfo.port scanned.queues q).map Port.toFifo = fifo.queues q)
      (hwake : scanned.nextWakeUpTime = (order.map (fifo.releaseTime now)).foldr min ⊤)
  | served (j q : ℕ) (p : Port P 1) (qe : QE P)
      (hselected : scanned.selected = some (j, q, onlyVn))
      (hj : wInfo.logicalQueueIds[j]? = some q)
      (hport : wInfo.port scanned.queues q = some p)
      (hhead : (p.phys onlyVn).head? = some qe)
      (hpop : order.findSome? (fifo.pop now) =
        some (q, qe.e, (p.departed onlyVn now).toFifo))
      (hsame : ∀ q' ∈ wInfo.logicalQueueIds, q' ≠ q →
        (wInfo.port scanned.queues q').map Port.toFifo = fifo.queues q')

section Loop

variable [IngressPacket P] {wInfo : WorkerInfo P 1} {fifo : RateLimitedFifo P m} {now : Ticks}

omit [IngressPacket P] in
theorem LoopSim.skip {q : ℕ} {order : List ℕ} {scanned scanned' : ScanState P 1}
    (hpop : fifo.pop now q = none) (hsim : LoopSim wInfo fifo now order scanned)
    (hselected : scanned'.selected = scanned.selected)
    (hqueues : scanned'.queues = scanned.queues)
    (hwake : scanned'.nextWakeUpTime = min (fifo.releaseTime now q) scanned.nextWakeUpTime) :
    LoopSim wInfo fifo now (q :: order) scanned' := by
  cases hsim with
  | blocked hnone hrest hsame hlater =>
      refine .blocked (hselected.trans hnone) ?_ (hqueues ▸ hsame) ?_
      · rw [List.findSome?_cons, hpop]
        exact hrest
      · rw [hwake, hlater]
        rfl
  | served j qid p qe hsome hj hport hhead hrest hsame =>
      refine .served j qid p qe (hselected.trans hsome) hj (hqueues ▸ hport) hhead ?_
        (hqueues ▸ hsame)
      rw [List.findSome?_cons, hpop]
      exact hrest

omit [IngressPacket P] in
/-- A new record which shows the same FIFO queue. -/
theorem fifo_update {queues : ℕ → Option (LogicalQueueInfo 1)} {qid : ℕ} {p : Port P 1}
    {lq : LogicalQueueInfo 1}
    (hfifo : ∀ q ∈ wInfo.logicalQueueIds,
      (wInfo.port queues q).map Port.toFifo = fifo.queues q)
    (hport : wInfo.port queues qid = some p) (hsame : Port.toFifo ⟨lq, p.phys⟩ = p.toFifo) :
    ∀ q ∈ wInfo.logicalQueueIds,
      (wInfo.port (Function.update queues qid (some lq)) q).map Port.toFifo =
        fifo.queues q := by
  intro q hq
  rw [wInfo.port_update]
  split
  next heq =>
    subst q
    rw [← hfifo qid hq, hport, (wInfo.port_eq_some.mp hport).2, Option.map_some,
      Option.map_some, Option.map_some, hsame]
  next => exact hfifo q hq

theorem scanLoop_sim {cs order : List ℕ} {queues : ℕ → Option (LogicalQueueInfo 1)}
    (hwf : ∀ q p, wInfo.port queues q = some p → p.WellFormed)
    (hfifo : ∀ q ∈ wInfo.logicalQueueIds,
      (wInfo.port queues q).map Port.toFifo = fifo.queues q)
    (hids : ∀ q ∈ wInfo.logicalQueueIds, (wInfo.physicalQueues q).isSome)
    (horder : cs.map (fun c => wInfo.logicalQueueIds[(wInfo.workerRrPtr + c) %
      wInfo.logicalQueueIds.length]?) = order.map some)
    {scanned : ScanState P 1} (hscan : wInfo.scanLoop now cs queues = some scanned) :
    LoopSim wInfo fifo now order scanned := by
  induction cs generalizing queues order scanned with
  | nil =>
      simp only [WorkerInfo.scanLoop, Option.some.injEq] at hscan
      subst scanned
      obtain rfl : order = [] := by simpa using horder.symm
      exact .blocked rfl rfl hfifo rfl
  | cons c cs ih =>
      cases order with
      | nil => simp at horder
      | cons q order =>
          simp only [List.map_cons, List.cons.injEq] at horder
          obtain ⟨hcandidate, horder⟩ := horder
          have hmem : q ∈ wInfo.logicalQueueIds := List.mem_of_getElem? hcandidate
          have hqueue : ∀ p, wInfo.port queues q = some p →
              fifo.queues q = some p.toFifo := by
            intro p hport
            rw [← hfifo q hmem, hport, Option.map_some]
          cases wInfo.scanLoop_cons now hscan with
          | @empty qid lq _ hid hlq hsize hloop =>
              obtain rfl : qid = q := Option.some.inj (hid.symm.trans hcandidate)
              obtain ⟨phys, hphys⟩ := Option.isSome_iff_exists.mp (hids qid hmem)
              have hport : wInfo.port queues qid = some ⟨lq, phys⟩ :=
                wInfo.port_eq_some.mpr ⟨hlq, hphys⟩
              have hempty := (packets_isEmpty (hwf qid _ hport)).mpr hsize
              refine (ih hwf hfifo horder hloop).skip ?_ rfl rfl ?_
              · rw [RateLimitedFifo.pop_of_queue (hqueue _ hport), FifoQueue.pop,
                  List.isEmpty_iff.mp hempty]
                rfl
              · rw [RateLimitedFifo.releaseTime_of_queue (hqueue _ hport),
                  FifoQueue.releaseTime, if_pos hempty, min_eq_right le_top]
          | @deferred qid p visit rest hid hport hsize hvisit hserved hloop =>
              obtain rfl : qid = q := Option.some.inj (hid.symm.trans hcandidate)
              have hp := hwf qid p hport
              cases visit_sim hp hvisit with
              | blocked _ hnone hsame hwake =>
                  have hlater := WorkerInfo.port_update_wellFormed hwf hport
                    (visit_visited hsize hp hvisit) hserved
                  have hfifo' := fifo_update hfifo hport hsame
                  refine (ih hlater hfifo' horder hloop).skip ?_ rfl rfl ?_
                  · rw [RateLimitedFifo.pop_of_queue (hqueue p hport), hnone]
                    rfl
                  · rw [RateLimitedFifo.releaseTime_of_queue (hqueue p hport), hwake]
              | served qe hsome => simp [hsome] at hserved
          | @served qid p visit v hid hport hsize hvisit hserved =>
              obtain rfl : qid = q := Option.some.inj (hid.symm.trans hcandidate)
              obtain rfl : v = onlyVn := Subsingleton.elim _ _
              cases visit_sim (hwf qid p hport) hvisit with
              | blocked hnone => simp [hnone] at hserved
              | served qe _ hhead hsome =>
                  refine .served _ qid ⟨visit.queue, p.phys⟩ qe rfl hid ?_ hhead ?_ ?_
                  · rw [wInfo.port_update, if_pos rfl, (wInfo.port_eq_some.mp hport).2,
                      Option.map_some]
                  · rw [List.findSome?_cons, RateLimitedFifo.pop_of_queue (hqueue p hport),
                      hsome]
                    rfl
                  · intro q' hq' hne
                    rw [wInfo.port_update, if_neg hne]
                    exact hfifo q' hq'

end Loop

namespace QueueingLogicVN

variable [IngressPacket P] {cfg : Config m 1} {s s' : QueueingLogicVN P m 1} {q : ℕ}
variable {now : Ticks}

omit [IngressPacket P] in
theorem toFifo_write {p : Port P 1} (size rrPtr : ℕ) :
    (s.write cfg q p size rrPtr).toFifo cfg =
      { (s.toFifo cfg).setQueue q p.toFifo with
        workers := Function.update (s.toFifo cfg).workers (cfg.mapToWorker q)
          ⟨(s.workersInfo (cfg.mapToWorker q)).logicalQueueIds, rrPtr⟩ } := by
  simp only [toFifo, RateLimitedFifo.setQueue, RateLimitedFifo.mk.injEq]
  refine ⟨rfl, funext fun q' => ?_, funext fun w => ?_⟩
  · rw [port_write]
    by_cases hq : q' = q
    · subst q'
      rw [if_pos rfl, Function.update_self, Option.map_some]
    · rw [if_neg hq, Function.update_of_ne hq]
  · by_cases hw : w = cfg.mapToWorker q
    · subst w
      simp [write, setWorker, setQueue]
    · simp [write, setWorker, setQueue, hw]

omit [IngressPacket P] in
theorem order_isEmpty (hcoh : s.Coherent cfg)
    (hwf : ∀ q p, s.port cfg q = some p → p.WellFormed) (w : Fin m) :
    ((s.toFifo cfg).order w).all (s.toFifo cfg).isEmpty ↔
      (s.workersInfo w).size = 0 := by
  have hempty : ∀ q ∈ (s.workersInfo w).logicalQueueIds,
      ((s.toFifo cfg).isEmpty q ↔ s.queueSize q = 0) := by
    intro q hq
    obtain ⟨lq, hlq⟩ := Option.isSome_iff_exists.mp ((hcoh.mem_ids w q).mp hq).1
    obtain ⟨phys, hport⟩ := exists_port hcoh hlq
    have hpackets := packets_isEmpty (hwf q _ hport)
    simpa [RateLimitedFifo.isEmpty, toFifo, hport, queueSize, hlq] using hpackets
  rw [List.all_eq_true, hcoh.size_eq w, List.sum_eq_zero_iff]
  constructor
  · intro hall n hn
    rcases List.mem_map.mp hn with ⟨q, hq, rfl⟩
    exact (hempty q hq).mp (hall q (List.mem_rotate.mpr hq))
  · intro hall q hq
    have hmem := List.mem_rotate.mp hq
    exact (hempty q hmem).mpr (hall _ (List.mem_map_of_mem hmem))

/-- The scan loop of a worker as seen from the whole scheduler. -/
theorem toFifo_scanned (hcoh : s.Coherent cfg) {w : Fin m} {scanned : ScanState P 1}
    (hspec : (s.workersInfo w).Scanned now cfg.vnWeights
      (List.range (s.workersInfo w).logicalQueueIds.length) s.logicalQueuesInfo scanned)
    (hsame : q ∈ (s.workersInfo w).logicalQueueIds →
      ((s.workersInfo w).port scanned.queues q).map Port.toFifo = (s.toFifo cfg).queues q) :
    (toFifo cfg { s with logicalQueuesInfo := scanned.queues }).queues q =
      (s.toFifo cfg).queues q := by
  by_cases hq : q ∈ (s.workersInfo w).logicalQueueIds
  · obtain rfl := ((hcoh.mem_ids w q).mp hq).2
    exact hsame hq
  · have hframe := (hspec.frame q hq).1
    simp only [toFifo, port, WorkerInfo.port, hframe]

theorem scan_sim (hcoh : s.Coherent cfg)
    (hwf : ∀ q p, s.port cfg q = some p → p.WellFormed) {w : Fin m}
    {outcome : ScanOutcome P 1} {log : Log P 1}
    (hscan : s.scan w now = some (s', outcome, log)) :
    (s.toFifo cfg).scan w now = (s'.toFifo cfg, Result.toFifo (.scanned outcome)) := by
  rw [RateLimitedFifo.scan]
  have hempty := order_isEmpty hcoh hwf w
  have hids : ∀ q ∈ (s.workersInfo w).logicalQueueIds,
      ((s.workersInfo w).physicalQueues q).isSome := fun q hq =>
    (hcoh.deques w q).mpr ((hcoh.mem_ids w q).mp hq)
  have hfifo : ∀ q ∈ (s.workersInfo w).logicalQueueIds,
      ((s.workersInfo w).port s.logicalQueuesInfo q).map Port.toFifo =
        (s.toFifo cfg).queues q := by
    intro q hq
    obtain rfl := ((hcoh.mem_ids w q).mp hq).2
    rfl
  have hwfw : ∀ q p, (s.workersInfo w).port s.logicalQueuesInfo q = some p → p.WellFormed :=
    fun q p hp => hwf q p (port_of_worker hcoh hp).2
  have hloops : ∀ scanned, (s.workersInfo w).scanLoop now
      (List.range (s.workersInfo w).logicalQueueIds.length) s.logicalQueuesInfo =
        some scanned →
      (s.workersInfo w).Scanned now cfg.vnWeights
          (List.range (s.workersInfo w).logicalQueueIds.length) s.logicalQueuesInfo scanned ∧
        LoopSim (s.workersInfo w) (s.toFifo cfg) now ((s.toFifo cfg).order w) scanned :=
    fun scanned hloop => ⟨WorkerInfo.scanLoop_scanned hwfw hloop,
      scanLoop_sim hwfw hfifo hids (CyclicScan.map_range_eq_rotate _ _) hloop⟩
  cases scan_cases hscan with
  | idle hworker => exact if_pos (hempty.mpr hworker)
  | @waited scanned hworker hloop hselected =>
      obtain ⟨hspec, hsim⟩ := hloops scanned hloop
      rw [if_neg fun hall => hworker (hempty.mp hall)]
      cases hsim with
      | served j q p qe hsome => simp [hsome] at hselected
      | blocked _ hpop hsame hwake =>
          rw [hpop]
          have hqueues : (toFifo cfg { s with logicalQueuesInfo := scanned.queues }).queues =
              (s.toFifo cfg).queues := funext fun q => toFifo_scanned hcoh hspec (hsame q)
          have hs : toFifo cfg { s with logicalQueuesInfo := scanned.queues } = s.toFifo cfg :=
            RateLimitedFifo.ext rfl hqueues rfl
          rw [hs, Result.toFifo, hwake]
  | @output scanned j q v p qe hworker hloop hselected hport hhead =>
      obtain ⟨hspec, hsim⟩ := hloops scanned hloop
      rw [if_neg fun hall => hworker (hempty.mp hall)]
      cases hsim with
      | blocked hnone => simp [hnone] at hselected
      | served j' q' p' qe' hselected' hj hport' hhead' hpop hsame =>
          rw [hselected, Option.some.injEq, Prod.mk.injEq, Prod.mk.injEq] at hselected'
          obtain ⟨rfl, rfl, rfl⟩ := hselected'
          obtain rfl : p = p' := Option.some.inj (hport.symm.trans hport')
          obtain rfl : qe = qe' := Option.some.inj (hhead.symm.trans hhead')
          rw [hpop]
          have hq : q ∈ (s.workersInfo w).logicalQueueIds := List.mem_of_getElem? hj
          obtain rfl := ((hcoh.mem_ids w q).mp hq).2
          obtain ⟨hlt, hget⟩ := List.getElem?_eq_some_iff.mp hj
          have hidx : (s.workersInfo (cfg.mapToWorker q)).logicalQueueIds.idxOf q = j := by
            have hnodup := (hcoh.nodup (cfg.mapToWorker q)).idxOf_getElem j hlt
            rwa [hget] at hnodup
          have hqueues : ((s.toFifo cfg).setQueue q (p.departed onlyVn now).toFifo).queues =
              ((toFifo cfg { s with logicalQueuesInfo := scanned.queues }).setQueue q
                (p.departed onlyVn now).toFifo).queues := by
            funext q'
            by_cases hq' : q' = q
            · subst q'
              simp [RateLimitedFifo.setQueue]
            · simp only [RateLimitedFifo.setQueue, Function.update_of_ne hq']
              exact (toFifo_scanned hcoh hspec fun hmem => hsame q' hmem hq').symm
          change _ = (toFifo cfg (write cfg { s with logicalQueuesInfo := scanned.queues } q
            (p.departed onlyVn now) ((s.workersInfo (cfg.mapToWorker q)).size - 1)
            ((j + 1) % (s.workersInfo (cfg.mapToWorker q)).logicalQueueIds.length)), _)
          rw [toFifo_write]
          refine Prod.ext (RateLimitedFifo.ext rfl hqueues ?_) rfl
          simp only [← hidx]
          rfl

/-! ## Pushes and setters -/

omit [IngressPacket P] in
theorem toFifo_write_same {p : Port P 1} (size : ℕ) :
    (s.write cfg q p size (s.workersInfo (cfg.mapToWorker q)).workerRrPtr).toFifo cfg =
      (s.toFifo cfg).setQueue q p.toFifo := by
  rw [toFifo_write]
  exact RateLimitedFifo.ext rfl rfl (Function.update_eq_self _ _)

omit [IngressPacket P] in
theorem setQueue_toFifo {p : Port P 1} (hport : s.port cfg q = some p) :
    (s.toFifo cfg).setQueue q p.toFifo = s.toFifo cfg := by
  have hqueue : (s.toFifo cfg).queues q = some p.toFifo := by
    simp only [toFifo, hport, Option.map_some]
  refine RateLimitedFifo.ext rfl ?_ rfl
  rw [RateLimitedFifo.setQueue, ← hqueue]
  exact Function.update_eq_self _ _

omit [IngressPacket P] in
theorem getQueue_sim (hcoh : s.Coherent cfg) (q : ℕ) (now : Ticks) {p : Port P 1}
    (hport : (s.getLogicalQueue cfg q (cfg.mapToWorker q) now).1.port cfg q = some p) :
    (s.toFifo cfg).getQueue cfg.mapToWorker q now =
      ((s.getLogicalQueue cfg q (cfg.mapToWorker q) now).1.toFifo cfg, p.toFifo) := by
  cases hlq : s.logicalQueuesInfo q with
  | some lq =>
      have hsame : s.getLogicalQueue cfg q (cfg.mapToWorker q) now = (s, lq) := by
        simp [getLogicalQueue, hlq]
      rw [hsame] at hport ⊢
      have hqueue : (s.toFifo cfg).queues q = some p.toFifo := by
        simp only [toFifo, hport, Option.map_some]
      simp only [RateLimitedFifo.getQueue, hqueue]
  | none =>
      have hnone : (s.toFifo cfg).queues q = none := by
        simp only [toFifo, (port_eq_none hcoh).mpr hlq, Option.map_none]
      have hregister := port_register hcoh hlq now
      obtain rfl : Port.initial s.capacity cfg.vnWeights now = p := by
        rw [hregister, if_pos rfl] at hport
        exact Option.some.inj hport
      simp only [RateLimitedFifo.getQueue, hnone, Prod.mk.injEq]
      refine ⟨RateLimitedFifo.ext ?_ (funext fun q' => ?_) (funext fun w => ?_), rfl⟩
      · simp [RateLimitedFifo.setQueue, toFifo, getLogicalQueue, hlq]
      · by_cases hq : q' = q
        · subst q'
          simp [RateLimitedFifo.setQueue, toFifo, hregister]
          rfl
        · simp [RateLimitedFifo.setQueue, toFifo, hregister, hq]
      · by_cases hw : w = cfg.mapToWorker q
        · subst w
          simp [toFifo, getLogicalQueue, hlq]
        · simp [toFifo, getLogicalQueue, hlq, hw]

theorem push_sim (hcoh : s.Coherent cfg)
    (hwf : ∀ q p, s.port cfg q = some p → p.WellFormed) {vn color : ℕ} {item : Option P}
    {accepted : Bool} {v : Fin 1} (hv : vnIndex vn = some v)
    (hpush : s.pushFront cfg q vn color item now = some (s', accepted)) :
    (s.toFifo cfg).push cfg.mapToWorker q item now = (s'.toFifo cfg, accepted) := by
  obtain rfl : v = onlyVn := Subsingleton.elim _ _
  rcases getLogicalQueue_advances hcoh q now with ⟨hget, p, hport, hinfo⟩
  have hsize := (hget.wellFormed hwf q p hport).size_eq onlyVn
  rw [pushFront_eq hv hport hinfo] at hpush
  simp only [Option.some.injEq, Prod.mk.injEq] at hpush
  rcases hpush with ⟨rfl, rfl⟩
  rw [RateLimitedFifo.push, getQueue_sim hcoh q now hport, toFifo_write_same]
  have hroom : p.full onlyVn = true ↔ p.toFifo.capacity ≤ p.toFifo.packets.length := by
    simp [Port.full, Port.toFifo, hsize]
  cases hfull : p.full onlyVn with
  | true =>
      have hsame : (p.push onlyVn color item).toFifo = p.toFifo := by
        simp [Port.push, hfull, Port.toFifo, LogicalQueueInfo.accrue_eq]
      rw [hsame, setQueue_toFifo hport]
      exact if_pos (hroom.mp hfull)
  | false =>
      have hpushed : (p.push onlyVn color item).toFifo =
          { p.toFifo with packets := p.toFifo.packets ++ [(item, ingressSize item)] } := by
        simp [Port.push, hfull, Port.toFifo, LogicalQueueInfo.accrue_eq,
          LogicalQueueInfo.accept_eq, Port.element, QE.toFifo]
      rw [hpushed]
      refine if_neg fun hle => ?_
      rw [hroom.mpr hle] at hfull
      contradiction

/-- A setter which writes one queue, for an update `f` which the FIFO queue
shows as `g`. -/
theorem setOne_sim (hcoh : s.Coherent cfg) (q : ℕ) (now : Ticks)
    {f : LogicalQueueInfo 1 → LogicalQueueInfo 1} {g : FifoQueue P → FifoQueue P}
    (hfg : ∀ p : Port P 1, Port.toFifo ⟨f p.info, p.phys⟩ = g p.toFifo) :
    (s.toFifo cfg).modifyQueue cfg.mapToWorker q now g =
      ((s.getLogicalQueue cfg q (cfg.mapToWorker q) now).1.setQueue q
        (f (s.getLogicalQueue cfg q (cfg.mapToWorker q) now).2)).toFifo cfg := by
  rcases getLogicalQueue_advances hcoh q now with ⟨-, p, hport, hinfo⟩
  rw [RateLimitedFifo.modifyQueue, getQueue_sim hcoh q now hport, setQueue_eq_write hport,
    toFifo_write_same, ← hinfo, hfg]

omit [IngressPacket P] in
/-- A setter which writes all queues. -/
theorem setAll_sim (capacity : ℕ)
    {f : LogicalQueueInfo 1 → LogicalQueueInfo 1} {g : FifoQueue P → FifoQueue P}
    (hfg : ∀ p : Port P 1, Port.toFifo ⟨f p.info, p.phys⟩ = g p.toFifo) :
    toFifo cfg { s with
        capacity := capacity
        logicalQueuesInfo := fun q => (s.logicalQueuesInfo q).map f } =
      { s.toFifo cfg with
        queues := fun q => ((s.toFifo cfg).queues q).map g
        capacity := capacity } := by
  refine RateLimitedFifo.ext rfl (funext fun q => ?_) rfl
  simp only [toFifo, port, WorkerInfo.port]
  cases s.logicalQueuesInfo q with
  | none => rfl
  | some lq =>
      cases hphys : (s.workersInfo (cfg.mapToWorker q)).physicalQueues q with
      | none => rfl
      | some phys => simpa using hfg ⟨lq, phys⟩

/-! ## Steps and runs -/

/-- The simulation relation. -/
structure Simulates (cfg : Config m 1) (s : QueueingLogicVN P m 1) (t : RateLimitedFifo P m) :
    Prop where
  coherent : s.Coherent cfg
  wellFormed : ∀ q p, s.port cfg q = some p → p.WellFormed
  eq : t = s.toFifo cfg

omit [IngressPacket P] in
theorem simulates_initial (capacity : ℕ) :
    Simulates cfg (initial capacity : QueueingLogicVN P m 1)
      (RateLimitedFifo.initial capacity) where
  coherent := coherent_initial capacity
  wellFormed := by simp
  eq := RateLimitedFifo.ext rfl
    (funext fun q => by simp [toFifo, RateLimitedFifo.initial]) rfl

theorem step_sim (hcoh : s.Coherent cfg)
    (hwf : ∀ q p, s.port cfg q = some p → p.WellFormed) {op : Op P m}
    {calls : List (Call P m 1)} (hstep : s.step cfg op = some (s', calls)) :
    ∃ result, calls.map (fun call => call.result.toFifo) = [result] ∧
      (s.toFifo cfg).step cfg.mapToWorker op.toFifo = (s'.toFifo cfg, result) := by
  cases op with
  | pushFront q vn color item now =>
      rcases step_pushFront hstep with ⟨v, accepted, hv, hpush, rfl⟩
      refine ⟨.pushed accepted, rfl, ?_⟩
      simp only [Op.toFifo, RateLimitedFifo.step, push_sim hcoh hwf hv hpush]
  | scan w now =>
      rcases step_scan hstep with ⟨outcome, log, hscan, rfl⟩
      exact ⟨_, rfl, scan_sim hcoh hwf hscan⟩
  | setVnCapacity q vn c now =>
      rcases step_setVnCapacity hstep with ⟨v, hv, hset, rfl⟩
      obtain rfl : v = onlyVn := Subsingleton.elim _ _
      simp only [setVnCapacity, hv, Option.bind_eq_bind, Option.bind_some,
        Option.some.injEq] at hset
      subst s'
      refine ⟨.done, rfl, Prod.ext ?_ rfl⟩
      exact setOne_sim hcoh q now
        (f := fun lq => lq.modifyVn onlyVn fun sq => { sq with capacity := c })
        (g := fun fq => { fq with capacity := c })
        fun p => by simp [Port.toFifo, LogicalQueueInfo.modifyVn]
  | setQueueCapacity q c now =>
      simp only [step, Option.some.injEq, Prod.mk.injEq] at hstep
      rcases hstep with ⟨rfl, rfl⟩
      refine ⟨.done, rfl, Prod.ext ?_ rfl⟩
      exact setOne_sim hcoh q now (f := fun lq => lq.setCapacities c)
        (g := fun fq => { fq with capacity := c }) fun _ => rfl
  | setCapacityForAll c =>
      simp only [step, Option.some.injEq, Prod.mk.injEq] at hstep
      rcases hstep with ⟨rfl, rfl⟩
      refine ⟨.done, rfl, Prod.ext (setAll_sim c ?_).symm rfl⟩
      exact fun _ => rfl
  | setRate q bps now =>
      simp only [step, Option.some.injEq, Prod.mk.injEq] at hstep
      rcases hstep with ⟨rfl, rfl⟩
      refine ⟨.done, rfl, Prod.ext ?_ rfl⟩
      exact setOne_sim hcoh q now (f := fun lq => { lq with dequeueRateBps := bps })
        (g := fun fq => { fq with dequeueRateBps := bps }) fun _ => rfl
  | setRateForAll bps =>
      simp only [step, Option.some.injEq, Prod.mk.injEq] at hstep
      rcases hstep with ⟨rfl, rfl⟩
      refine ⟨.done, rfl, Prod.ext (setAll_sim s.capacity ?_).symm rfl⟩
      exact fun _ => rfl

theorem next_sim (s : QueueingLogicVN P m 1) (t : RateLimitedFifo P m) (op : Op P m)
    (s' : QueueingLogicVN P m 1) (calls : List (Call P m 1)) (hsim : Simulates cfg s t)
    (hstep : s.step cfg op = some (s', calls)) :
    ∃ t', t.next cfg.mapToWorker op.toFifo =
      some (t', calls.map fun call => call.result.toFifo) ∧ Simulates cfg s' t' := by
  obtain ⟨hcoh, hwf, rfl⟩ := hsim
  obtain ⟨result, hresult, hfifo⟩ := step_sim hcoh hwf hstep
  obtain ⟨call, -, -, hadvances, -⟩ := step_spec hcoh hwf hstep
  refine ⟨s'.toFifo cfg, ?_, hadvances.coherent, hadvances.wellFormed hwf, rfl⟩
  rw [RateLimitedFifo.next, hfifo, hresult]

/-- With a single VN the scheduler on exact integers answers every sequence of calls
like the rate-limited FIFO scheduler, which sees neither VN ids nor colors. -/
theorem single_vn_fifo (cfg : Config m 1) (capacity : ℕ) (ops : List (Op P m))
    (hops : ∀ op ∈ ops, op.VnBelow 1) :
    ∃ s history, run cfg (initial capacity) ops = some (s, history) ∧
      (RateLimitedFifo.initial capacity).run cfg.mapToWorker (ops.map Op.toFifo) =
        some (s.toFifo cfg, history.map fun call => call.result.toFifo) := by
  obtain ⟨s, history, hrun⟩ := run_isSome cfg capacity ops hops
  obtain ⟨t, hexec, ht⟩ := exec_simulation next_sim (simulates_initial capacity) hrun
  refine ⟨s, history, hrun, ?_⟩
  rw [← ht.eq]
  exact hexec

end QueueingLogicVN

end Cmcs
