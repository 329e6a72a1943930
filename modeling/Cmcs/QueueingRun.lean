import Cmcs.QueueingCoherent
import Mathlib.Tactic

/-!
# Runs of the scheduler

Every call keeps the layers coherent and does to each slot of
`logical_queues_info` a run of `Port.Life` which its log shows, and no call made
with VN ids below `nb_vns` runs into undefined behaviour.  So what holds of all
runs of one logical queue holds of the queue inside the scheduler.
-/

namespace Cmcs

open TransitionSystem

variable {P : Type} [IngressPacket P] {m k : ℕ}

/-- The VN id of the call, if it has one, is below `nb_vns`. -/
def Op.VnBelow (k : ℕ) : Op P m → Prop
  | .pushFront _ vn _ _ _ => vn < k
  | .setVnCapacity _ vn _ _ => vn < k
  | _ => True

def Op.reading : Op P m → Option Ticks
  | .pushFront _ _ _ _ now => some now
  | .scan _ now => some now
  | .setVnCapacity _ _ _ now => some now
  | .setQueueCapacity _ _ now => some now
  | .setRate _ _ now => some now
  | _ => none

/-- Until when the worker sleeps after the scan, if it does. -/
def ScanOutcome.deadline : ScanOutcome P k → Option (WithTop Ticks)
  | .wait => some ⊤
  | .waitUntil nextWakeUpTime => some nextWakeUpTime
  | .output .. => none

def ScanOutcome.packet : ScanOutcome P k → Option (ℕ × Fin k × QE P)
  | .output q v qe => some (q, v, qe)
  | _ => none

def Op.IsSetter : Op P m → Prop
  | .pushFront .. => False
  | .scan .. => False
  | _ => True

/-- The events which a setter can show, a creation at its own reading. -/
def Event.Control (reading : Option Ticks) : Event P k → Prop
  | .create now => reading = some now
  | .setVnCapacity _ _ => True
  | .setQueueCapacity _ => True
  | .setRate _ => True
  | _ => False

def Event.time : Event P k → Option Ticks
  | .create now => some now
  | .sweep now _ => some now
  | .defer now => some now
  | .release now _ _ => some now
  | _ => none

def Call.dequeued (q : ℕ) (call : Call P m k) : Option (Ticks × Fin k × QE P) :=
  match call.op, call.result with
  | .scan _ now, .scanned (.output qid v qe) => if qid = q then some (now, v, qe) else none
  | _, _ => none

namespace QueueingLogicVN

variable {cfg : Config m k} {s s' : QueueingLogicVN P m k} {q : ℕ} {p : Port P k}

theorem vnIndex_eq_some {vn : ℕ} {v : Fin k} : vnIndex vn = some v ↔ (v : ℕ) = vn := by
  unfold vnIndex
  split
  next h =>
    simp only [Option.some.injEq, Fin.ext_iff]
    exact eq_comm
  next h =>
    constructor
    · intro hnone
      simp at hnone
    · intro heq
      exact absurd (heq ▸ v.isLt) h

/-! ## `push_front` -/

/-- `push_front` is a push to the port, which may have to be created first. -/
theorem pushFront_eq {vn color : ℕ} {item : Option P} {now : Ticks} {v : Fin k}
    (hv : vnIndex vn = some v)
    (hport : (s.getLogicalQueue cfg q (cfg.mapToWorker q) now).1.port cfg q = some p)
    (hinfo : p.info = (s.getLogicalQueue cfg q (cfg.mapToWorker q) now).2) :
    s.pushFront cfg q vn color item now =
      some ((s.getLogicalQueue cfg q (cfg.mapToWorker q) now).1.write cfg q
        (p.push v color item)
        (((s.getLogicalQueue cfg q (cfg.mapToWorker q) now).1.workersInfo
          (cfg.mapToWorker q)).size + if p.full v then 0 else 1)
        ((s.getLogicalQueue cfg q (cfg.mapToWorker q) now).1.workersInfo
          (cfg.mapToWorker q)).workerRrPtr, !p.full v) := by
  have hphys := (port_eq_some.mp hport).2
  have hcap : ((p.info.accrue v color (ingressSize item)).vnQueues v).capacity =
      (p.info.vnQueues v).capacity := by
    rw [LogicalQueueInfo.accrue_eq]
  have hsize : ((p.info.accrue v color (ingressSize item)).vnQueues v).size =
      (p.info.vnQueues v).size := by
    rw [LogicalQueueInfo.accrue_eq]
  unfold pushFront
  simp only [← hinfo, hv, Option.bind_eq_bind, Option.bind_some, hcap, hsize]
  split
  next hle =>
    have hfull : p.full v = true := by simpa [Port.full] using hle
    simp only [Port.push, hfull, if_true, Bool.not_true, add_zero]
    rw [setQueue_eq_write hport]
  next hlt =>
    have hfull : p.full v = false := by simpa [Port.full] using hlt
    simp only [hphys, Option.bind_some, Port.push, hfull, Bool.false_eq_true, if_false,
      Bool.not_false]
    rfl

theorem pushFront_advances (hcoh : s.Coherent cfg) {vn color : ℕ} {item : Option P}
    {now : Ticks} {accepted : Bool} {v : Fin k} (hv : vnIndex vn = some v)
    (hpush : s.pushFront cfg q vn color item now = some (s', accepted)) :
    Advances cfg s s' (s.creation q now ++ [(q, .push v color item accepted)]) := by
  rcases getLogicalQueue_advances hcoh q now with ⟨hget, p, hport, hinfo⟩
  rw [pushFront_eq hv hport hinfo] at hpush
  simp only [Option.some.injEq, Prod.mk.injEq] at hpush
  rcases hpush with ⟨rfl, rfl⟩
  refine hget.trans (advances_write hget.coherent hport (Port.Step.push p v color item) _ ?_)
  rw [Port.push_size]
  omega

theorem pushFront_isSome (hcoh : s.Coherent cfg) {vn : ℕ} (hvn : vn < k) (q color : ℕ)
    (item : Option P) (now : Ticks) :
    ∃ s' accepted, s.pushFront cfg q vn color item now = some (s', accepted) := by
  rcases getLogicalQueue_advances hcoh q now with ⟨-, p, hport, hinfo⟩
  have hv : vnIndex vn = some (⟨vn, hvn⟩ : Fin k) := vnIndex_eq_some.mpr rfl
  exact ⟨_, _, pushFront_eq hv hport hinfo⟩

/-! ## `pop_back` -/

omit [IngressPacket P] in
theorem port_of_worker (hcoh : s.Coherent cfg) {w : Fin m}
    (hport : (s.workersInfo w).port s.logicalQueuesInfo q = some p) :
    cfg.mapToWorker q = w ∧ s.port cfg q = some p := by
  have hphys := ((s.workersInfo w).port_eq_some.mp hport).2
  have hw := ((hcoh.deques w q).mp (by simp [hphys])).2
  refine ⟨hw, ?_⟩
  subst w
  exact hport

/-- What one scan does, with the outcome tied to the log.  A scan without an
output has deferred every non-empty queue of the worker. -/
structure ScanSpec (cfg : Config m k) (s s' : QueueingLogicVN P m k) (w : Fin m)
    (now : Ticks) (outcome : ScanOutcome P k) (log : Log P k) : Prop where
  advances : Advances cfg s s' log
  scannedAt : ∀ q, ∀ e ∈ logOf q log, e.ScannedAt now
  output : ∀ qid v qe, outcome = .output qid v qe → cfg.mapToWorker qid = w ∧
    (∃ before, logOf qid log = before ++ [.release now v qe] ∧ releases before = []) ∧
      ∀ q, q ≠ qid → releases (logOf q log) = []
  waited : (∀ qid v qe, outcome ≠ .output qid v qe) →
    (∀ q, releases (logOf q log) = []) ∧
      ∀ q p, cfg.mapToWorker q = w → s.port cfg q = some p → p.info.size ≠ 0 →
        .defer now ∈ logOf q log

/-- A scan has no events at an unregistered queue, since it creates none. -/
theorem ScanSpec.log_eq_nil {w : Fin m} {now : Ticks} {outcome : ScanOutcome P k} {log : Log P k}
    (hscan : ScanSpec cfg s s' w now outcome log) (hport : s.port cfg q = none) :
    logOf q log = [] := by
  have hlife := hscan.advances.life q
  rw [hport] at hlife
  cases Port.Life.cases_run hlife with
  | inl hnone => exact hnone.1
  | inr hsome =>
      obtain ⟨_, created, rest, _, hevents, -, -⟩ := hsome
      have hat := hscan.scannedAt q (.create created) (by simp [hevents])
      exact absurd hat (by simp [Event.ScannedAt])

omit [IngressPacket P] in
theorem size_eq_zero_of_worker (hcoh : s.Coherent cfg) (hport : s.port cfg q = some p)
    (hworker : (s.workersInfo (cfg.mapToWorker q)).size = 0) : p.info.size = 0 := by
  have hlq := (port_eq_some.mp hport).1
  have hmem := (hcoh.mem_ids (cfg.mapToWorker q) q).mpr ⟨by simp [hlq], rfl⟩
  have hcount : s.queueSize q = p.info.size := by simp [queueSize, hlq]
  have hsum := hcoh.size_eq (cfg.mapToWorker q)
  rw [hworker] at hsum
  have hzero := List.sum_eq_zero_iff.mp hsum.symm _ (List.mem_map_of_mem hmem)
  omega

omit [IngressPacket P] in
theorem exists_candidate (hcoh : s.Coherent cfg) (hport : s.port cfg q = some p) :
    ∃ c ∈ List.range (s.workersInfo (cfg.mapToWorker q)).logicalQueueIds.length,
      (s.workersInfo (cfg.mapToWorker q)).logicalQueueIds[
        ((s.workersInfo (cfg.mapToWorker q)).workerRrPtr + c) %
          (s.workersInfo (cfg.mapToWorker q)).logicalQueueIds.length]? = some q := by
  have hlq := (port_eq_some.mp hport).1
  have hmem := (hcoh.mem_ids (cfg.mapToWorker q) q).mpr ⟨by simp [hlq], rfl⟩
  rcases List.mem_iff_getElem.mp hmem with ⟨pos, hpos, hget⟩
  rcases CyclicScan.exists_offset (s.workersInfo (cfg.mapToWorker q)).workerRrPtr hpos with
    ⟨c, hc, hidx⟩
  rw [Nat.mod_add_mod] at hidx
  refine ⟨c, List.mem_range.mpr hc, ?_⟩
  rw [hidx, List.getElem?_eq_getElem hpos, hget]

/-- How a scan ends: at an idle worker, after deferrals only, or with a packet. -/
inductive ScanCases (s : QueueingLogicVN P m k) (w : Fin m) (now : Ticks) :
    QueueingLogicVN P m k → ScanOutcome P k → Log P k → Prop
  | idle (hworker : (s.workersInfo w).size = 0) : ScanCases s w now s .wait []
  | waited {scanned : ScanState P k} (hworker : (s.workersInfo w).size ≠ 0)
      (hloop : (s.workersInfo w).scanLoop now
        (List.range (s.workersInfo w).logicalQueueIds.length) s.logicalQueuesInfo =
          some scanned)
      (hselected : scanned.selected = none) :
      ScanCases s w now { s with logicalQueuesInfo := scanned.queues }
        (.waitUntil scanned.nextWakeUpTime) scanned.log
  | output {scanned : ScanState P k} {j qid : ℕ} {v : Fin k} {p : Port P k} {qe : QE P}
      (hworker : (s.workersInfo w).size ≠ 0)
      (hloop : (s.workersInfo w).scanLoop now
        (List.range (s.workersInfo w).logicalQueueIds.length) s.logicalQueuesInfo =
          some scanned)
      (hselected : scanned.selected = some (j, qid, v))
      (hport : (s.workersInfo w).port scanned.queues qid = some p)
      (hhead : (p.phys v).head? = some qe) :
      ScanCases s w now
        (({ s with logicalQueuesInfo := scanned.queues }.setQueue qid
            (p.info.depart v now)).setWorker w
          { s.workersInfo w with
            size := (s.workersInfo w).size - 1
            workerRrPtr := (j + 1) % (s.workersInfo w).logicalQueueIds.length
            physicalQueues := Function.update (s.workersInfo w).physicalQueues qid
              (some (Function.update p.phys v (p.phys v).tail)) })
        (.output qid v qe) scanned.log

omit [IngressPacket P] in
theorem scan_cases {w : Fin m} {now : Ticks} {outcome : ScanOutcome P k} {log : Log P k}
    (hscan : s.scan w now = some (s', outcome, log)) : ScanCases s w now s' outcome log := by
  simp only [scan] at hscan
  split at hscan
  next hworker =>
    simp only [Option.some.injEq, Prod.mk.injEq] at hscan
    rcases hscan with ⟨rfl, rfl, rfl⟩
    exact .idle hworker
  next hworker =>
    rcases Option.bind_eq_some_iff.mp hscan with ⟨scanned, hloop, hrest⟩
    cases hselected : scanned.selected with
    | none =>
        simp only [hselected, Option.some.injEq, Prod.mk.injEq] at hrest
        rcases hrest with ⟨rfl, rfl, rfl⟩
        exact .waited hworker hloop hselected
    | some found =>
        rcases found with ⟨j, qid, v⟩
        simp only [hselected] at hrest
        rcases Option.bind_eq_some_iff.mp hrest with ⟨lq, hlq, hrest⟩
        rcases Option.bind_eq_some_iff.mp hrest with ⟨deques, hphys, hrest⟩
        rcases Option.bind_eq_some_iff.mp hrest with ⟨qe, hhead, hrest⟩
        simp only [Option.some.injEq, Prod.mk.injEq] at hrest
        rcases hrest with ⟨rfl, rfl, rfl⟩
        have hport : (s.workersInfo w).port scanned.queues qid = some ⟨lq, deques⟩ :=
          (s.workersInfo w).port_eq_some.mpr ⟨hlq, hphys⟩
        exact .output hworker hloop hselected hport hhead

section Scanned

variable {w : Fin m} {now : Ticks} {scanned : ScanState P k}

theorem scanned_other (hcoh : s.Coherent cfg)
    (hspec : (s.workersInfo w).Scanned now cfg.vnWeights
      (List.range (s.workersInfo w).logicalQueueIds.length) s.logicalQueuesInfo scanned)
    (hq : cfg.mapToWorker q ≠ w) :
    logOf q scanned.log = [] ∧
      port cfg { s with logicalQueuesInfo := scanned.queues } q = s.port cfg q := by
  have hids : q ∉ (s.workersInfo w).logicalQueueIds :=
    fun hmem => hq ((hcoh.mem_ids w q).mp hmem).2
  rcases hspec.frame q hids with ⟨hqueue, hlog⟩
  exact ⟨hlog, by simp [port, WorkerInfo.port, hqueue]⟩

theorem scan_waited (hcoh : s.Coherent cfg)
    (hspec : (s.workersInfo w).Scanned now cfg.vnWeights
      (List.range (s.workersInfo w).logicalQueueIds.length) s.logicalQueuesInfo scanned)
    (hselected : scanned.selected = none) :
    ScanSpec cfg s { s with logicalQueuesInfo := scanned.queues } w now
      (.waitUntil scanned.nextWakeUpTime) scanned.log := by
  rcases hspec.waited hselected with ⟨hquiet, hall⟩
  refine ⟨⟨hcoh.withQueues s.capacity hspec.size_eq, fun q => ?_⟩, hspec.scannedAt, by simp,
    fun _ => ⟨hquiet, ?_⟩⟩
  · by_cases hq : cfg.mapToWorker q = w
    · subst w
      have hrun := hspec.run q
      simp only [WorkerInfo.portAfter, hselected] at hrun
      exact hrun
    · rcases scanned_other hcoh hspec hq with ⟨hlog, hport⟩
      rw [hlog, hport]
      exact Run.nil
  · intro q p hw hport hsize
    subst w
    obtain ⟨c, hc, hq⟩ := exists_candidate hcoh hport
    exact hall c hc q p.info hq (port_eq_some.mp hport).1 hsize

theorem scan_served (hcoh : s.Coherent cfg) (hworker : (s.workersInfo w).size ≠ 0)
    (hspec : (s.workersInfo w).Scanned now cfg.vnWeights
      (List.range (s.workersInfo w).logicalQueueIds.length) s.logicalQueuesInfo scanned)
    {j qid : ℕ} {v : Fin k} (hselected : scanned.selected = some (j, qid, v)) :
    cfg.mapToWorker qid = w ∧ ∃ p qe, (s.workersInfo w).port scanned.queues qid = some p ∧
      (p.phys v).head? = some qe ∧ ∀ rrPtr,
        ScanSpec cfg s (write cfg { s with logicalQueuesInfo := scanned.queues } qid
          (p.departed v now) ((s.workersInfo w).size - 1) rrPtr) w now (.output qid v qe)
          scanned.log := by
  rcases hspec.served j qid v hselected with
    ⟨hqid, p, qe, before, hport, hsize, hhead, hlast, hbefore, hothers⟩
  have hw := ((hcoh.mem_ids w qid).mp hqid).2
  subst w
  refine ⟨rfl, p, qe, hport, hhead, fun rrPtr => ⟨⟨?_, fun q => ?_⟩, hspec.scannedAt, ?_, ?_⟩⟩
  · refine (hcoh.withQueues s.capacity hspec.size_eq).write hport _ ?_
    simp only [Port.departed, LogicalQueueInfo.depart]
    omega
  · rw [port_write]
    by_cases hq : cfg.mapToWorker q = cfg.mapToWorker qid
    · have hrun := hspec.run q
      simp only [WorkerInfo.portAfter, hselected] at hrun
      rw [← hq] at hrun hport
      by_cases heq : q = qid
      · subst q
        rw [if_pos rfl, hport, Option.map_some] at hrun
        rw [if_pos rfl]
        exact hrun
      · rw [if_neg heq] at hrun
        rw [if_neg heq]
        exact hrun
    · have hne : q ≠ qid := fun heq => hq (by rw [heq])
      rcases scanned_other hcoh hspec hq with ⟨hlog, hsame⟩
      rw [if_neg hne, hlog, hsame]
      exact Run.nil
  · intro qid' v' qe' heq
    simp only [ScanOutcome.output.injEq] at heq
    rcases heq with ⟨rfl, rfl, rfl⟩
    exact ⟨rfl, ⟨before, hlast, hbefore⟩, hothers⟩
  · intro hwait
    exact absurd rfl (hwait qid v qe)

theorem scan_spec (hcoh : s.Coherent cfg)
    (hwf : ∀ q p, s.port cfg q = some p → p.WellFormed) {outcome : ScanOutcome P k}
    {log : Log P k} (hscan : s.scan w now = some (s', outcome, log)) :
    ScanSpec cfg s s' w now outcome log := by
  have hwfw : ∀ q p, (s.workersInfo w).port s.logicalQueuesInfo q = some p → p.WellFormed :=
    fun q p hp => hwf q p (port_of_worker hcoh hp).2
  cases scan_cases hscan with
  | idle hworker =>
      refine ⟨Advances.refl hcoh, by simp, by simp, fun _ => ⟨fun _ => rfl, ?_⟩⟩
      intro q p hw hport hsize
      subst w
      exact absurd (size_eq_zero_of_worker hcoh hport hworker) hsize
  | waited _ hloop hselected =>
      exact scan_waited hcoh (WorkerInfo.scanLoop_scanned hwfw hloop) hselected
  | output hworker hloop hselected hport hhead =>
      rcases scan_served hcoh hworker (WorkerInfo.scanLoop_scanned hwfw hloop) hselected with
        ⟨rfl, p, qe, hport', hhead', hserved⟩
      rw [hport, Option.some.injEq] at hport'
      subst p
      rw [hhead, Option.some.injEq] at hhead'
      subst qe
      exact hserved _

end Scanned

theorem scan_isSome (hcoh : s.Coherent cfg)
    (hwf : ∀ q p, s.port cfg q = some p → p.WellFormed) (w : Fin m) (now : Ticks) :
    ∃ s' outcome log, s.scan w now = some (s', outcome, log) := by
  have hloop : ∃ scanned, (s.workersInfo w).scanLoop now
      (List.range (s.workersInfo w).logicalQueueIds.length) s.logicalQueuesInfo =
        some scanned := by
    refine WorkerInfo.scanLoop_isSome ?_ ?_ fun q p hp => hwf q p (port_of_worker hcoh hp).2
    · intro hne hnil
      simp [hnil] at hne
    · intro q hq
      rcases (hcoh.mem_ids w q).mp hq with ⟨hsome, rfl⟩
      rcases Option.isSome_iff_exists.mp hsome with ⟨lq, hlq⟩
      rcases exists_port hcoh hlq with ⟨phys, hport⟩
      exact ⟨_, hport⟩
  rcases hloop with ⟨scanned, hloop⟩
  have hspec : (s.workersInfo w).Scanned now cfg.vnWeights
      (List.range (s.workersInfo w).logicalQueueIds.length) s.logicalQueuesInfo scanned :=
    WorkerInfo.scanLoop_scanned (fun q p hp => hwf q p (port_of_worker hcoh hp).2) hloop
  simp only [scan]
  split
  next => exact ⟨_, _, _, rfl⟩
  next =>
    simp only [hloop, Option.bind_eq_bind, Option.bind_some]
    cases hselected : scanned.selected with
    | none => exact ⟨_, _, _, rfl⟩
    | some found =>
        rcases found with ⟨j, qid, v⟩
        rcases hspec.served j qid v hselected with ⟨-, p, qe, -, hport, -, hhead, -⟩
        rcases (s.workersInfo w).port_eq_some.mp hport with ⟨hlq, hphys⟩
        simp only [hlq, hphys, hhead, Option.bind_some]
        exact ⟨_, _, _, rfl⟩

/-! ## Capacity and rate setters -/

theorem setOne_advances (hcoh : s.Coherent cfg) (q : ℕ) (now : Ticks) {e : Event P k}
    {f : LogicalQueueInfo k → LogicalQueueInfo k}
    (hstep : ∀ p : Port P k, Port.Step p e ⟨f p.info, p.phys⟩)
    (hsize : ∀ lq, (f lq).size = lq.size) :
    Advances cfg s
      ((s.getLogicalQueue cfg q (cfg.mapToWorker q) now).1.setQueue q
        (f (s.getLogicalQueue cfg q (cfg.mapToWorker q) now).2))
      (s.creation q now ++ [(q, e)]) := by
  rcases getLogicalQueue_advances hcoh q now with ⟨hget, p, hport, hinfo⟩
  rw [← hinfo]
  exact hget.trans (advances_setQueue hget.coherent hport (hstep p) (hsize p.info))

omit [IngressPacket P] in
theorem mem_registered (hcoh : s.Coherent cfg) :
    q ∈ s.registered ↔ (s.logicalQueuesInfo q).isSome := by
  unfold registered
  rw [List.mem_flatMap]
  constructor
  · intro hmem
    rcases hmem with ⟨w, _, hq⟩
    exact ((hcoh.mem_ids w q).mp hq).1
  · intro hsome
    exact ⟨cfg.mapToWorker q, List.mem_finRange _,
      (hcoh.mem_ids (cfg.mapToWorker q) q).mpr ⟨hsome, rfl⟩⟩

omit [IngressPacket P] in
theorem nodup_registered (hcoh : s.Coherent cfg) : s.registered.Nodup := by
  refine List.nodup_flatMap.mpr ⟨fun w _ => hcoh.nodup w, ?_⟩
  refine (List.nodup_finRange m).pairwise_of_forall_ne ?_
  intro w _ w' _ hne x hx hx'
  have hw := ((hcoh.mem_ids w x).mp hx).2
  have hw' := ((hcoh.mem_ids w' x).mp hx').2
  exact hne (hw.symm.trans hw')

omit [IngressPacket P] in
theorem logOf_map_nodup {ids : List ℕ} (hnodup : ids.Nodup) (q : ℕ) (e : Event P k) :
    logOf q (ids.map fun id => (id, e)) = if q ∈ ids then [e] else [] := by
  induction ids with
  | nil => rfl
  | cons id rest ih =>
      have hrest := ih (List.nodup_cons.mp hnodup).2
      have hid := (List.nodup_cons.mp hnodup).1
      rw [List.map_cons, ← List.singleton_append, logOf_append, logOf_singleton, hrest]
      by_cases hq : id = q
      · subst id
        simp [hid]
      · simp [hq, Ne.symm hq]

theorem setAll_advances (hcoh : s.Coherent cfg) (capacity : ℕ) {e : Event P k}
    {f : LogicalQueueInfo k → LogicalQueueInfo k}
    (hstep : ∀ p : Port P k, Port.Step p e ⟨f p.info, p.phys⟩)
    (hsize : ∀ lq, (f lq).size = lq.size) :
    Advances cfg s
      { s with capacity := capacity, logicalQueuesInfo := fun q => (s.logicalQueuesInfo q).map f }
      (s.registered.map fun q => (q, e)) := by
  refine ⟨hcoh.withQueues capacity fun q => ?_, fun q => ?_⟩
  · simp [Option.map_map, Function.comp_def, hsize]
  · rw [logOf_map_nodup (nodup_registered hcoh)]
    simp only [mem_registered hcoh]
    cases hport : s.port cfg q with
    | none =>
        have hlq := (port_eq_none hcoh).mp hport
        simp only [port, WorkerInfo.port, hlq, Option.isSome_none, Bool.false_eq_true,
          if_false, Option.map_none, Option.bind_none]
        exact Run.nil
    | some p =>
        rcases port_eq_some.mp hport with ⟨hlq, hphys⟩
        simp only [port, WorkerInfo.port, hlq, hphys, Option.isSome_some, if_true,
          Option.map_some, Option.bind_some]
        exact Run.single (Port.Life.live (hstep p))

/-! ## Steps and runs -/

/-- One entry of the history, by kind of call. -/
inductive StepSpec (cfg : Config m k) (s s' : QueueingLogicVN P m k) : Call P m k → Prop
  | pushFront {q vn color : ℕ} {item : Option P} {now : Ticks} {accepted : Bool}
      (v : Fin k) (hv : (v : ℕ) = vn)
      (hpush : s.pushFront cfg q vn color item now = some (s', accepted)) :
      StepSpec cfg s s' ⟨.pushFront q vn color item now, .pushed accepted,
        s.creation q now ++ [(q, .push v color item accepted)]⟩
  | scan {w : Fin m} {now : Ticks} {outcome : ScanOutcome P k} {log : Log P k}
      (hscan : ScanSpec cfg s s' w now outcome log) :
      StepSpec cfg s s' ⟨.scan w now, .scanned outcome, log⟩
  | setter {op : Op P m} {log : Log P k} (hop : op.IsSetter)
      (hlog : ∀ entry ∈ log, entry.2.Control op.reading) : StepSpec cfg s s' ⟨op, .done, log⟩

omit [IngressPacket P] in
theorem creation_control (q : ℕ) (now : Ticks) :
    ∀ entry ∈ s.creation q now, entry.2.Control (some now) := by
  intro entry hentry
  unfold creation at hentry
  split at hentry
  · simp at hentry
  · rw [List.mem_singleton.mp hentry]
    rfl

omit [IngressPacket P] in
theorem control_of_creation {now : Ticks} {e : Event P k} (he : e.Control (some now)) :
    ∀ entry ∈ s.creation q now ++ [(q, e)], entry.2.Control (some now) := by
  intro entry hentry
  cases List.mem_append.mp hentry with
  | inl hcreation => exact creation_control q now entry hcreation
  | inr hlast =>
      rw [List.mem_singleton.mp hlast]
      exact he

omit [IngressPacket P] in
theorem control_of_all {reading : Option Ticks} {ids : List ℕ} {e : Event P k}
    (he : e.Control reading) :
    ∀ entry ∈ ids.map fun q => (q, e), entry.2.Control reading := by
  intro entry hentry
  rcases List.mem_map.mp hentry with ⟨q, _, rfl⟩
  exact he

theorem step_pushFront {vn color : ℕ} {item : Option P} {now : Ticks}
    {calls : List (Call P m k)}
    (hstep : s.step cfg (.pushFront q vn color item now) = some (s', calls)) :
    ∃ v accepted, vnIndex vn = some v ∧
      s.pushFront cfg q vn color item now = some (s', accepted) ∧
      calls = [⟨.pushFront q vn color item now, .pushed accepted,
        s.creation q now ++ [(q, .push v color item accepted)]⟩] := by
  obtain ⟨v, hv, hrest⟩ := Option.bind_eq_some_iff.mp hstep
  obtain ⟨⟨t, accepted⟩, hpush, heq⟩ := Option.bind_eq_some_iff.mp hrest
  simp only [Option.some.injEq, Prod.mk.injEq] at heq
  obtain ⟨rfl, rfl⟩ := heq
  exact ⟨v, accepted, hv, hpush, rfl⟩

theorem step_scan {w : Fin m} {now : Ticks} {calls : List (Call P m k)}
    (hstep : s.step cfg (.scan w now) = some (s', calls)) :
    ∃ outcome log, s.scan w now = some (s', outcome, log) ∧
      calls = [⟨.scan w now, .scanned outcome, log⟩] := by
  obtain ⟨⟨t, outcome, log⟩, hscan, heq⟩ := Option.bind_eq_some_iff.mp hstep
  simp only [Option.some.injEq, Prod.mk.injEq] at heq
  obtain ⟨rfl, rfl⟩ := heq
  exact ⟨outcome, log, hscan, rfl⟩

theorem scan_of_step {w : Fin m} {now : Ticks} {outcome : ScanOutcome P k} {log : Log P k}
    (hstep : s.step cfg (.scan w now) =
      some (s', [⟨.scan w now, .scanned outcome, log⟩])) :
    s.scan w now = some (s', outcome, log) := by
  obtain ⟨outcome', log', hscan, heq⟩ := step_scan hstep
  simp only [List.cons.injEq, Call.mk.injEq, Result.scanned.injEq, true_and,
    and_true] at heq
  obtain ⟨rfl, rfl⟩ := heq
  exact hscan

theorem step_setVnCapacity {vn c : ℕ} {now : Ticks} {calls : List (Call P m k)}
    (hstep : s.step cfg (.setVnCapacity q vn c now) = some (s', calls)) :
    ∃ v, vnIndex vn = some v ∧ s.setVnCapacity cfg q vn c now = some s' ∧
      calls = [⟨.setVnCapacity q vn c now, .done,
        s.creation q now ++ [(q, .setVnCapacity v c)]⟩] := by
  obtain ⟨v, hv, hrest⟩ := Option.bind_eq_some_iff.mp hstep
  obtain ⟨t, hset, heq⟩ := Option.bind_eq_some_iff.mp hrest
  simp only [Option.some.injEq, Prod.mk.injEq] at heq
  obtain ⟨rfl, rfl⟩ := heq
  exact ⟨v, hv, hset, rfl⟩

theorem step_spec (hcoh : s.Coherent cfg)
    (hwf : ∀ q p, s.port cfg q = some p → p.WellFormed) {op : Op P m}
    {calls : List (Call P m k)} (hstep : s.step cfg op = some (s', calls)) :
    ∃ call, calls = [call] ∧ call.op = op ∧ Advances cfg s s' call.log ∧
      StepSpec cfg s s' call := by
  cases op with
  | pushFront q vn color item now =>
      rcases step_pushFront hstep with ⟨v, accepted, hv, hpush, rfl⟩
      exact ⟨_, rfl, rfl, pushFront_advances hcoh hv hpush,
        .pushFront v (vnIndex_eq_some.mp hv) hpush⟩
  | scan w now =>
      rcases step_scan hstep with ⟨outcome, log, hscan, rfl⟩
      have hspec := scan_spec hcoh hwf hscan
      exact ⟨_, rfl, rfl, hspec.advances, .scan hspec⟩
  | setVnCapacity q vn c now =>
      rcases step_setVnCapacity hstep with ⟨v, hv, hset, rfl⟩
      simp only [setVnCapacity, hv, Option.bind_eq_bind, Option.bind_some,
        Option.some.injEq] at hset
      subst s'
      refine ⟨_, rfl, rfl, ?_, .setter trivial (control_of_creation (by trivial))⟩
      exact setOne_advances hcoh q now
        (f := fun lq => lq.modifyVn v fun sq => { sq with capacity := c })
        (fun p => Port.Step.setVnCapacity p v c) fun _ => rfl
  | setQueueCapacity q c now =>
      simp only [step, Option.some.injEq, Prod.mk.injEq] at hstep
      rcases hstep with ⟨rfl, rfl⟩
      refine ⟨_, rfl, rfl, ?_, .setter trivial (control_of_creation (by trivial))⟩
      exact setOne_advances hcoh q now (f := fun lq => lq.setCapacities c)
        (fun p => Port.Step.setQueueCapacity p c) fun _ => rfl
  | setCapacityForAll c =>
      simp only [step, Option.some.injEq, Prod.mk.injEq] at hstep
      rcases hstep with ⟨rfl, rfl⟩
      refine ⟨_, rfl, rfl, ?_, .setter trivial (control_of_all (by trivial))⟩
      exact setAll_advances hcoh c (fun p => Port.Step.setQueueCapacity p c) fun _ => rfl
  | setRate q bps now =>
      simp only [step, Option.some.injEq, Prod.mk.injEq] at hstep
      rcases hstep with ⟨rfl, rfl⟩
      refine ⟨_, rfl, rfl, ?_, .setter trivial (control_of_creation (by trivial))⟩
      exact setOne_advances hcoh q now (f := fun lq => { lq with dequeueRateBps := bps })
        (fun p => Port.Step.setRate p bps) fun _ => rfl
  | setRateForAll bps =>
      simp only [step, Option.some.injEq, Prod.mk.injEq] at hstep
      rcases hstep with ⟨rfl, rfl⟩
      refine ⟨_, rfl, rfl, ?_, .setter trivial (control_of_all (by trivial))⟩
      exact setAll_advances hcoh s.capacity
        (f := fun lq => { lq with dequeueRateBps := bps })
        (fun p => Port.Step.setRate p bps) fun _ => rfl

theorem step_isSome (hcoh : s.Coherent cfg)
    (hwf : ∀ q p, s.port cfg q = some p → p.WellFormed) {op : Op P m}
    (hop : op.VnBelow k) : ∃ s' calls, s.step cfg op = some (s', calls) := by
  cases op with
  | pushFront q vn color item now =>
      have hv : vnIndex vn = some (⟨vn, hop⟩ : Fin k) := vnIndex_eq_some.mpr rfl
      rcases pushFront_isSome hcoh hop q color item now with ⟨s', accepted, hpush⟩
      simp only [step, hv, hpush, Option.bind_eq_bind, Option.bind_some]
      exact ⟨_, _, rfl⟩
  | scan w now =>
      rcases scan_isSome hcoh hwf w now with ⟨s', outcome, log, hscan⟩
      simp only [step, hscan, Option.bind_eq_bind, Option.bind_some]
      exact ⟨_, _, rfl⟩
  | setVnCapacity q vn c now =>
      have hv : vnIndex vn = some (⟨vn, hop⟩ : Fin k) := vnIndex_eq_some.mpr rfl
      simp only [step, setVnCapacity, hv, Option.bind_eq_bind, Option.bind_some]
      exact ⟨_, _, rfl⟩
  | setQueueCapacity => exact ⟨_, _, rfl⟩
  | setCapacityForAll => exact ⟨_, _, rfl⟩
  | setRate => exact ⟨_, _, rfl⟩
  | setRateForAll => exact ⟨_, _, rfl⟩

/-- A VN id which is not below `nb_vns` is an index out of range. -/
theorem vnBelow_of_step {op : Op P m} {calls : List (Call P m k)}
    (hstep : s.step cfg op = some (s', calls)) : op.VnBelow k := by
  cases op with
  | pushFront q vn color item now =>
      rcases step_pushFront hstep with ⟨v, -, hv, -⟩
      exact vnIndex_eq_some.mp hv ▸ v.isLt
  | setVnCapacity q vn c now =>
      rcases step_setVnCapacity hstep with ⟨v, hv, -⟩
      exact vnIndex_eq_some.mp hv ▸ v.isLt
  | _ => trivial

section Runs

variable {capacity : ℕ} {ops : List (Op P m)} {history : List (Call P m k)}

theorem advances_run {start : QueueingLogicVN P m k} (hcoh : start.Coherent cfg)
    (hwf : ∀ q p, start.port cfg q = some p → p.WellFormed)
    (hrun : run cfg start ops = some (s, history)) :
    Advances cfg start s (history.flatMap Call.log) ∧
      ∀ q p, s.port cfg q = some p → p.WellFormed := by
  refine exec_invariant (I := fun _ s history =>
    Advances cfg start s (history.flatMap Call.log) ∧
      ∀ q p, s.port cfg q = some p → p.WellFormed) ?_ ?_ hrun
  · exact ⟨Advances.refl hcoh, hwf⟩
  · intro ops s history op s' calls _ hbefore hstep
    rcases hbefore with ⟨hadvances, hwf⟩
    rcases step_spec hadvances.coherent hwf hstep with ⟨call, rfl, -, hcall, -⟩
    refine ⟨?_, hcall.wellFormed hwf⟩
    rw [List.flatMap_append, List.flatMap_singleton]
    exact hadvances.trans hcall

omit [IngressPacket P] in
@[simp] theorem port_initial (q : ℕ) :
    (initial capacity : QueueingLogicVN P m k).port cfg q = none := by
  simp [port, WorkerInfo.port, initial]

theorem run_advances (hrun : run cfg (initial capacity) ops = some (s, history)) :
    Advances cfg (initial capacity) s (history.flatMap Call.log) ∧
      ∀ q p, s.port cfg q = some p → p.WellFormed :=
  advances_run (coherent_initial capacity) (by simp) hrun

theorem run_coherent (hrun : run cfg (initial capacity) ops = some (s, history)) :
    s.Coherent cfg :=
  (run_advances hrun).1.coherent

theorem run_wellFormed (hrun : run cfg (initial capacity) ops = some (s, history)) :
    ∀ q p, s.port cfg q = some p → p.WellFormed :=
  (run_advances hrun).2

theorem run_life (hrun : run cfg (initial capacity) ops = some (s, history)) (q : ℕ) :
    Run (Port.Life cfg.vnWeights) none (logOf q (history.flatMap Call.log))
      (s.port cfg q) := by
  have hlife := (run_advances hrun).1.life q
  rwa [port_initial] at hlife

/-- Induction over the calls of a run from a coherent state. -/
theorem run_induction_from {start : QueueingLogicVN P m k} (hcoh : start.Coherent cfg)
    (hwf : ∀ q p, start.port cfg q = some p → p.WellFormed)
    {I : List (Op P m) → QueueingLogicVN P m k → List (Call P m k) → Prop}
    (hstart : I [] start [])
    (hnext : ∀ ops s history s' call, run cfg start ops = some (s, history) →
      I ops s history → s.step cfg call.op = some (s', [call]) →
      Advances cfg s s' call.log → StepSpec cfg s s' call →
      I (ops ++ [call.op]) s' (history ++ [call]))
    (hrun : run cfg start ops = some (s, history)) : I ops s history := by
  refine exec_invariant hstart ?_ hrun
  intro ops s history op s' calls hbefore hI hstep
  obtain ⟨hadvances, hwf'⟩ := advances_run hcoh hwf hbefore
  rcases step_spec hadvances.coherent hwf' hstep with ⟨call, rfl, rfl, hcall, hspec⟩
  exact hnext ops s history s' call hbefore hI hstep hcall hspec

theorem run_induction {I : List (Op P m) → QueueingLogicVN P m k → List (Call P m k) → Prop}
    (hstart : I [] (initial capacity) [])
    (hnext : ∀ ops s history s' call,
      run cfg (initial capacity) ops = some (s, history) → I ops s history →
      Advances cfg s s' call.log → StepSpec cfg s s' call →
      I (ops ++ [call.op]) s' (history ++ [call]))
    (hrun : run cfg (initial capacity) ops = some (s, history)) : I ops s history := by
  refine run_induction_from (coherent_initial capacity) (by simp) hstart ?_ hrun
  intro ops s history s' call hbefore hI _ hcall hspec
  exact hnext ops s history s' call hbefore hI hcall hspec

/-- No sequence of calls with VN ids below `nb_vns` fails. -/
theorem run_isSome (cfg : Config m k) (capacity : ℕ) (ops : List (Op P m))
    (hops : ∀ op ∈ ops, op.VnBelow k) :
    ∃ s history, run cfg (initial capacity) ops = some (s, history) := by
  refine exec_total (I := fun ops => ∀ op ∈ ops, op.VnBelow k) ?_ ?_ ops hops
  · intro ops op hall op' hop'
    exact hall op' (List.mem_append_left _ hop')
  · intro ops s history op hrun hall
    exact step_isSome (run_coherent hrun) (run_wellFormed hrun) (hall op (by simp))

/-! ## What the results say about the log -/

omit [IngressPacket P] in
theorem mem_logOf {log : Log P k} {e : Event P k} : e ∈ logOf q log ↔ (q, e) ∈ log := by
  unfold logOf
  rw [List.mem_filterMap]
  constructor
  · intro hmem
    obtain ⟨⟨q', e'⟩, hentry, hsome⟩ := hmem
    split at hsome
    next hq =>
      simp only [Option.some.injEq] at hsome hq
      rw [← hq, ← hsome]
      exact hentry
    next => simp at hsome
  · intro hmem
    exact ⟨(q, e), hmem, by simp⟩

theorem StepSpec.time {s' : QueueingLogicVN P m k} {call : Call P m k}
    (hspec : StepSpec cfg s s' call) {e : Event P k} (he : e ∈ logOf q call.log) {now : Ticks}
    (htime : e.time = some now) : call.op.reading = some now := by
  cases hspec with
  | pushFront v hv hpush =>
      cases List.mem_append.mp (mem_logOf.mp he) with
      | inl hcreation =>
          have hcontrol := creation_control _ _ _ hcreation
          cases e with
          | create =>
              rw [Event.time] at htime
              exact hcontrol.trans htime
          | _ => simp_all [Event.time, Event.Control]
      | inr hlast =>
          simp only [List.mem_singleton, Prod.mk.injEq] at hlast
          simp [hlast.2, Event.time] at htime
  | scan hscan =>
      have hat := hscan.scannedAt q e he
      cases e <;> simp_all [Event.time, Event.ScannedAt, Op.reading]
  | setter _ hlog =>
      have hcontrol := hlog _ (mem_logOf.mp he)
      cases e with
      | create =>
          rw [Event.time] at htime
          exact hcontrol.trans htime
      | _ => simp_all [Event.time, Event.Control]

omit [IngressPacket P] in
theorem setRate_notMem_creation (q q' bps : ℕ) (now : Ticks) :
    (q, Event.setRate bps) ∉ s.creation q' now := by
  unfold creation
  split <;> simp

theorem setRate_of_step (hcoh : s.Coherent cfg)
    (hwf : ∀ q p, s.port cfg q = some p → p.WellFormed) {op : Op P m}
    {calls : List (Call P m k)} (hstep : s.step cfg op = some (s', calls)) {bps : ℕ}
    (hmem : (q, .setRate bps) ∈ calls.flatMap Call.log) :
    (∃ now, op = .setRate q bps now) ∨ op = .setRateForAll bps := by
  cases op with
  | pushFront q' vn color item now =>
      rcases step_pushFront hstep with ⟨v, accepted, -, -, rfl⟩
      simp [setRate_notMem_creation] at hmem
  | scan w now =>
      obtain ⟨call, rfl, hop, -, hspec⟩ := step_spec hcoh hwf hstep
      rw [List.flatMap_singleton] at hmem
      cases hspec with
      | scan hscan =>
          have hat := hscan.scannedAt q _ (mem_logOf.mpr hmem)
          simp [Event.ScannedAt] at hat
      | pushFront => simp at hop
      | setter hsetter =>
          simp only at hop
          subst hop
          exact absurd hsetter (by simp [Op.IsSetter])
  | setVnCapacity q' vn c now =>
      rcases step_setVnCapacity hstep with ⟨v, -, -, rfl⟩
      simp [setRate_notMem_creation] at hmem
  | setQueueCapacity q' c now =>
      simp only [step, Option.some.injEq, Prod.mk.injEq] at hstep
      rw [← hstep.2] at hmem
      simp [setRate_notMem_creation] at hmem
  | setCapacityForAll c =>
      simp only [step, Option.some.injEq, Prod.mk.injEq] at hstep
      rw [← hstep.2] at hmem
      simp at hmem
  | setRate q' bps' now =>
      simp only [step, Option.some.injEq, Prod.mk.injEq] at hstep
      rw [← hstep.2] at hmem
      have hlast : q = q' ∧ bps = bps' := by
        simpa [setRate_notMem_creation] using hmem
      exact Or.inl ⟨now, by rw [hlast.1, hlast.2]⟩
  | setRateForAll bps' =>
      simp only [step, Option.some.injEq, Prod.mk.injEq] at hstep
      rw [← hstep.2] at hmem
      have hall : bps = bps' := by
        have hboth : q ∈ s.registered ∧ bps' = bps := by simpa using hmem
        exact hboth.2.symm
      exact Or.inr (by rw [hall])

omit [IngressPacket P] in
theorem filterMap_logOf_eq_nil {X : Type*} {f : Event P k → Option X} {log : Log P k}
    (hlog : ∀ entry ∈ log, f entry.2 = none) : (logOf q log).filterMap f = [] := by
  apply List.filterMap_eq_nil_iff.mpr
  intro e he
  exact hlog (q, e) (mem_logOf.mp he)

omit [IngressPacket P] in
theorem releases_of_control {reading : Option Ticks} {log : Log P k}
    (hlog : ∀ entry ∈ log, entry.2.Control reading) :
    releases (logOf q log) = [] := by
  apply filterMap_logOf_eq_nil
  intro entry hentry
  have hcontrol := hlog entry hentry
  cases hevent : entry.2 with
  | release now v qe => simp [hevent, Event.Control] at hcontrol
  | _ => rfl

theorem StepSpec.releases_eq {call : Call P m k} (hspec : StepSpec cfg s s' call) (q : ℕ) :
    releases (logOf q call.log) = (call.dequeued q).toList := by
  cases hspec with
  | @pushFront q' vn color item now accepted v hv hpush =>
      have hcreation := releases_of_control (q := q) (creation_control (s := s) q' now)
      rw [logOf_append, releases_append, hcreation, logOf_singleton]
      split <;> rfl
  | @scan w now outcome log hscan =>
      cases outcome with
      | output qid v qe =>
          obtain ⟨-, ⟨before, hlog, hbefore⟩, hothers⟩ := hscan.output qid v qe rfl
          by_cases hq : qid = q
          · subst q
            simp [hlog, hbefore, Call.dequeued, Event.released]
          · simp [hothers q (Ne.symm hq), Call.dequeued, hq]
      | wait => exact (hscan.waited (by simp)).1 q
      | waitUntil => exact (hscan.waited (by simp)).1 q
  | @setter op log hop hlog =>
      rw [releases_of_control hlog]
      cases op with
      | pushFront => exact absurd hop (by simp [Op.IsSetter])
      | scan => exact absurd hop (by simp [Op.IsSetter])
      | _ => rfl

/-- What each call's result says of its log, all results say of the whole log. -/
theorem filterMap_log_from {start : QueueingLogicVN P m k} (hcoh : start.Coherent cfg)
    (hwf : ∀ q p, start.port cfg q = some p → p.WellFormed)
    {X : Type*} {f : Event P k → Option X} {g : Call P m k → Option X}
    (hcall : ∀ s s' call, StepSpec cfg s s' call →
      (logOf q call.log).filterMap f = (g call).toList)
    (hrun : run cfg start ops = some (s, history)) :
    (logOf q (history.flatMap Call.log)).filterMap f = history.filterMap g := by
  apply run_induction_from hcoh hwf (I := fun _ _ history =>
    (logOf q (history.flatMap Call.log)).filterMap f = history.filterMap g) rfl ?_ hrun
  intro ops s history s' call _ hbefore _ _ hspec
  rw [List.flatMap_append, List.flatMap_singleton, logOf_append, List.filterMap_append,
    hbefore, hcall s s' call hspec, filterMap_concat]

theorem filterMap_log_run {X : Type*} {f : Event P k → Option X} {g : Call P m k → Option X}
    (hcall : ∀ s s' call, StepSpec cfg s s' call →
      (logOf q call.log).filterMap f = (g call).toList)
    (hrun : run cfg (initial capacity) ops = some (s, history)) :
    (logOf q (history.flatMap Call.log)).filterMap f = history.filterMap g :=
  filterMap_log_from (coherent_initial capacity) (by simp) hcall hrun

theorem releases_from {start : QueueingLogicVN P m k} (hcoh : start.Coherent cfg)
    (hwf : ∀ q p, start.port cfg q = some p → p.WellFormed)
    (hrun : run cfg start ops = some (s, history)) (q : ℕ) :
    releases (logOf q (history.flatMap Call.log)) = history.filterMap (Call.dequeued q) :=
  filterMap_log_from hcoh hwf (fun _ _ _ hspec => hspec.releases_eq q) hrun

/-- What each call's log shows when the call is admissible, the whole log shows. -/
theorem forall_log_run {A : Op P m → Prop} {E : Event P k → Prop}
    (hcall : ∀ s s' call, StepSpec cfg s s' call → A call.op →
      ∀ e ∈ logOf q call.log, E e)
    (hrun : run cfg (initial capacity) ops = some (s, history)) (hops : ∀ op ∈ ops, A op) :
    ∀ e ∈ logOf q (history.flatMap Call.log), E e := by
  have hall := run_induction (I := fun ops _ history => (∀ op ∈ ops, A op) →
    ∀ e ∈ logOf q (history.flatMap Call.log), E e) (by simp) ?_ hrun
  · exact hall hops
  · intro ops s history s' call _ ih _ hspec hops e he
    rw [List.flatMap_append, List.flatMap_singleton, logOf_append] at he
    cases List.mem_append.mp he with
    | inl hbefore => exact ih (fun op hop => hops op (List.mem_append_left _ hop)) e hbefore
    | inr hlast => exact hcall s s' call hspec (hops call.op (by simp)) e hlast

/-- A registered queue has run, from its creation, through its log. -/
theorem run_port (hrun : run cfg (initial capacity) ops = some (s, history))
    (hport : s.port cfg q = some p) :
    ∃ capacity' created rest,
      logOf q (history.flatMap Call.log) = .create created :: rest ∧
      Run Port.Step (Port.initial capacity' cfg.vnWeights created) rest p := by
  have hlife := run_life hrun q
  rw [hport] at hlife
  exact Port.Life.created_of_run hlife

theorem log_eq_nil_of_port (hrun : run cfg (initial capacity) ops = some (s, history))
    (hport : s.port cfg q = none) : logOf q (history.flatMap Call.log) = [] := by
  have hlife := run_life hrun q
  rw [hport] at hlife
  exact Port.Life.eq_nil_of_none hlife

theorem exists_run_port (hrun : run cfg (initial capacity) ops = some (s, history))
    {lq : LogicalQueueInfo k} (hlq : s.logicalQueuesInfo q = some lq) :
    ∃ phys capacity' created rest,
      s.port cfg q = some ⟨lq, phys⟩ ∧
      logOf q (history.flatMap Call.log) = .create created :: rest ∧
      Run Port.Step (Port.initial capacity' cfg.vnWeights created) rest ⟨lq, phys⟩ := by
  obtain ⟨phys, hport⟩ := exists_port (run_coherent hrun) hlq
  obtain ⟨capacity', created, rest, hevents, hrest⟩ := run_port hrun hport
  exact ⟨phys, capacity', created, rest, hport, hevents, hrest⟩

theorem releases_run (hrun : run cfg (initial capacity) ops = some (s, history)) (q : ℕ) :
    releases (logOf q (history.flatMap Call.log)) = history.filterMap (Call.dequeued q) :=
  filterMap_log_run (fun _ _ _ hspec => hspec.releases_eq q) hrun

end Runs

end QueueingLogicVN

end Cmcs
