import Cmcs.ScanRun
import Mathlib.Tactic

/-!
# Coherence of the layers of the scheduler

`Coherent` relates the ids which a worker lists, the two maps which are filled
together and the packet count of the worker.  Writes to one queue, writes to
all queues and the lazy creation keep it, and each does to the slots of
`logical_queues_info` a run of `Port.Life` which its log shows.
-/

namespace Cmcs

open TransitionSystem

variable {P : Type} {m k : ℕ}

namespace QueueingLogicVN

variable (cfg : Config m k) (s : QueueingLogicVN P m k)

def port (q : ℕ) : Option (Port P k) :=
  (s.workersInfo (cfg.mapToWorker q)).port s.logicalQueuesInfo q

def queueSize (q : ℕ) : ℕ := ((s.logicalQueuesInfo q).map fun lq => lq.size).getD 0

structure Coherent : Prop where
  nodup : ∀ w, (s.workersInfo w).logicalQueueIds.Nodup
  mem_ids : ∀ w q, q ∈ (s.workersInfo w).logicalQueueIds ↔
    (s.logicalQueuesInfo q).isSome ∧ cfg.mapToWorker q = w
  deques : ∀ w q, ((s.workersInfo w).physicalQueues q).isSome ↔
    (s.logicalQueuesInfo q).isSome ∧ cfg.mapToWorker q = w
  size_eq : ∀ w, (s.workersInfo w).size =
    ((s.workersInfo w).logicalQueueIds.map s.queueSize).sum

variable {cfg s} {q : ℕ} {p : Port P k}

theorem coherent_initial (capacity : ℕ) :
    (initial capacity : QueueingLogicVN P m k).Coherent cfg := by
  constructor <;> simp [initial]

theorem port_eq_some :
    s.port cfg q = some p ↔ s.logicalQueuesInfo q = some p.info ∧
      (s.workersInfo (cfg.mapToWorker q)).physicalQueues q = some p.phys :=
  WorkerInfo.port_eq_some _

theorem port_eq_none (hcoh : s.Coherent cfg) :
    s.port cfg q = none ↔ s.logicalQueuesInfo q = none := by
  constructor
  · intro hport
    cases hlq : s.logicalQueuesInfo q with
    | none => rfl
    | some lq =>
        have hdeques := (hcoh.deques (cfg.mapToWorker q) q).mpr ⟨by simp [hlq], rfl⟩
        rcases Option.isSome_iff_exists.mp hdeques with ⟨phys, hphys⟩
        have hsome : s.port cfg q = some ⟨lq, phys⟩ := port_eq_some.mpr ⟨hlq, hphys⟩
        simp [hport] at hsome
  · intro hlq
    simp [port, WorkerInfo.port, hlq]

theorem exists_port (hcoh : s.Coherent cfg) {lq : LogicalQueueInfo k}
    (hlq : s.logicalQueuesInfo q = some lq) :
    ∃ phys, s.port cfg q = some ⟨lq, phys⟩ := by
  cases hport : s.port cfg q with
  | none =>
      rw [port_eq_none hcoh, hlq] at hport
      contradiction
  | some p =>
      have hinfo := (port_eq_some.mp hport).1
      rw [hlq, Option.some.injEq] at hinfo
      exact ⟨p.phys, by rw [hinfo]⟩

/-! ## Writes to one queue and to all queues -/

theorem Coherent.withQueues (hcoh : s.Coherent cfg) (capacity : ℕ)
    {queues : ℕ → Option (LogicalQueueInfo k)}
    (hsize : ∀ q, (queues q).map (fun lq => lq.size) =
      (s.logicalQueuesInfo q).map fun lq => lq.size) :
    Coherent cfg { s with capacity := capacity, logicalQueuesInfo := queues } := by
  have hsome : ∀ q, (queues q).isSome = (s.logicalQueuesInfo q).isSome := by
    intro q
    have hq := congrArg Option.isSome (hsize q)
    simpa using hq
  constructor
  · exact hcoh.nodup
  · intro w q
    rw [hsome]
    exact hcoh.mem_ids w q
  · intro w q
    rw [hsome]
    exact hcoh.deques w q
  · intro w
    have hcount : queueSize { s with capacity := capacity, logicalQueuesInfo := queues } =
        s.queueSize := by
      funext q
      simp only [queueSize, hsize]
    rw [hcount]
    exact hcoh.size_eq w

theorem sum_map_write {ids : List ℕ} (hnodup : ids.Nodup) (hq : q ∈ ids) {f g : ℕ → ℕ}
    (hfg : ∀ x, x ≠ q → g x = f x) :
    (ids.map g).sum + f q = (ids.map f).sum + g q := by
  have hf := List.sum_map_erase f hq
  have hg := List.sum_map_erase g hq
  have hrest : (ids.erase q).map g = (ids.erase q).map f :=
    List.map_congr_left fun x hx => hfg x (hnodup.mem_erase_iff.mp hx).1
  rw [hrest] at hg
  omega

/-- A write to queue `q` and its worker: the record, the deques, and a worker
size adjusted to the new packet count. -/
def write (cfg : Config m k) (s : QueueingLogicVN P m k) (q : ℕ) (p : Port P k)
    (size rrPtr : ℕ) : QueueingLogicVN P m k :=
  let wInfo := s.workersInfo (cfg.mapToWorker q)
  (s.setQueue q p.info).setWorker (cfg.mapToWorker q)
    { wInfo with
      size := size
      workerRrPtr := rrPtr
      physicalQueues := Function.update wInfo.physicalQueues q (some p.phys) }

theorem port_write (size rrPtr : ℕ) (q' : ℕ) :
    (s.write cfg q p size rrPtr).port cfg q' =
      if q' = q then some p else s.port cfg q' := by
  by_cases hq : q' = q
  · subst q'
    simp [port, WorkerInfo.port, write, setQueue, setWorker]
  · by_cases hw : cfg.mapToWorker q' = cfg.mapToWorker q
    · simp [port, WorkerInfo.port, write, setQueue, setWorker, hq, hw]
    · simp [port, WorkerInfo.port, write, setQueue, setWorker, hq, hw]

theorem write_isSome (hlq : (s.logicalQueuesInfo q).isSome) (size rrPtr : ℕ) (q' : ℕ) :
    ((s.write cfg q p size rrPtr).logicalQueuesInfo q').isSome =
      (s.logicalQueuesInfo q').isSome := by
  by_cases hq : q' = q
  · subst q'
    simp [write, setQueue, setWorker, hlq]
  · simp [write, setQueue, setWorker, hq]

theorem write_logicalQueueIds (size rrPtr : ℕ) (w : Fin m) :
    ((s.write cfg q p size rrPtr).workersInfo w).logicalQueueIds =
      (s.workersInfo w).logicalQueueIds := by
  by_cases hw : w = cfg.mapToWorker q
  · subst w
    simp [write, setQueue, setWorker]
  · simp [write, setQueue, setWorker, hw]

theorem write_queueSize (size rrPtr : ℕ) (q' : ℕ) :
    (s.write cfg q p size rrPtr).queueSize q' =
      if q' = q then p.info.size else s.queueSize q' := by
  by_cases hq : q' = q
  · subst q'
    simp [queueSize, write, setQueue, setWorker]
  · simp [queueSize, write, setQueue, setWorker, hq]

theorem Coherent.write (hcoh : s.Coherent cfg) {old : Port P k}
    (hport : s.port cfg q = some old) {size : ℕ} (rrPtr : ℕ)
    (hsize : size + old.info.size =
      (s.workersInfo (cfg.mapToWorker q)).size + p.info.size) :
    (s.write cfg q p size rrPtr).Coherent cfg := by
  rcases port_eq_some.mp hport with ⟨hlq, hphys⟩
  have hsome : (s.logicalQueuesInfo q).isSome := by simp [hlq]
  have hcount : ∀ x, x ≠ q → (s.write cfg q p size rrPtr).queueSize x = s.queueSize x := by
    intro x hx
    rw [write_queueSize, if_neg hx]
  constructor
  · intro w
    rw [write_logicalQueueIds]
    exact hcoh.nodup w
  · intro w q'
    rw [write_logicalQueueIds, write_isSome hsome]
    exact hcoh.mem_ids w q'
  · intro w q'
    rw [write_isSome hsome, ← hcoh.deques w q']
    by_cases hw : w = cfg.mapToWorker q
    · subst w
      by_cases hq : q' = q
      · subst q'
        simp [QueueingLogicVN.write, setQueue, setWorker, hphys]
      · simp [QueueingLogicVN.write, setQueue, setWorker, hq]
    · simp [QueueingLogicVN.write, setQueue, setWorker, hw]
  · intro w
    rw [write_logicalQueueIds]
    by_cases hw : w = cfg.mapToWorker q
    · subst w
      have hmem := (hcoh.mem_ids (cfg.mapToWorker q) q).mpr ⟨hsome, rfl⟩
      have hsum := sum_map_write (hcoh.nodup _) hmem hcount
      have hold : s.queueSize q = old.info.size := by simp [queueSize, hlq]
      have hnew : (s.write cfg q p size rrPtr).queueSize q = p.info.size := by
        rw [write_queueSize, if_pos rfl]
      have hworker := hcoh.size_eq (cfg.mapToWorker q)
      have hwrite : ((s.write cfg q p size rrPtr).workersInfo (cfg.mapToWorker q)).size =
          size := by
        simp [QueueingLogicVN.write, setWorker]
      rw [hwrite]
      omega
    · have hother : ((s.write cfg q p size rrPtr).workersInfo w).size =
          (s.workersInfo w).size := by
        simp [QueueingLogicVN.write, setQueue, setWorker, hw]
      rw [hother, hcoh.size_eq w]
      congr 1
      apply List.map_congr_left
      intro x hx
      have hne : x ≠ q := by
        intro heq
        subst x
        exact hw ((hcoh.mem_ids w q).mp hx).2.symm
      exact (hcount x hne).symm

theorem setQueue_eq_write {lq : LogicalQueueInfo k} (hport : s.port cfg q = some p) :
    s.setQueue q lq = s.write cfg q ⟨lq, p.phys⟩
      (s.workersInfo (cfg.mapToWorker q)).size
      (s.workersInfo (cfg.mapToWorker q)).workerRrPtr := by
  have hphys := (port_eq_some.mp hport).2
  have hdeques : Function.update (s.workersInfo (cfg.mapToWorker q)).physicalQueues q
      (some p.phys) = (s.workersInfo (cfg.mapToWorker q)).physicalQueues := by
    rw [← hphys, Function.update_eq_self]
  simp only [write, hdeques]
  simp [setQueue, setWorker]

/-! ## Runs of the slots -/

section Slots

variable [IngressPacket P]

/-- What every call does: the layers stay coherent and each slot runs through
the events of its log. -/
structure Advances (cfg : Config m k) (s s' : QueueingLogicVN P m k) (log : Log P k) :
    Prop where
  coherent : s'.Coherent cfg
  life : ∀ q, Run (Port.Life cfg.vnWeights) (s.port cfg q) (logOf q log) (s'.port cfg q)

variable {s' s'' : QueueingLogicVN P m k} {log more : Log P k}

theorem Advances.refl (hcoh : s.Coherent cfg) : Advances cfg s s [] :=
  ⟨hcoh, fun _ => Run.nil⟩

theorem Advances.trans (hfirst : Advances cfg s s' log) (hsecond : Advances cfg s' s'' more) :
    Advances cfg s s'' (log ++ more) := by
  refine ⟨hsecond.coherent, fun q => ?_⟩
  rw [logOf_append]
  exact (hfirst.life q).append (hsecond.life q)

theorem Advances.wellFormed (hadvances : Advances cfg s s' log)
    (hwf : ∀ q p, s.port cfg q = some p → p.WellFormed) :
    ∀ q p, s'.port cfg q = some p → p.WellFormed := fun q =>
  Port.Life.wellFormed_run cfg.vnWeights_pos (hadvances.life q) (hwf q)

theorem advances_write (hcoh : s.Coherent cfg) (hport : s.port cfg q = some p)
    {p' : Port P k} {e : Event P k} (hstep : Port.Step p e p') {size : ℕ} (rrPtr : ℕ)
    (hsize : size + p.info.size =
      (s.workersInfo (cfg.mapToWorker q)).size + p'.info.size) :
    Advances cfg s (s.write cfg q p' size rrPtr) [(q, e)] := by
  refine ⟨hcoh.write hport rrPtr hsize, fun q' => ?_⟩
  rw [port_write, logOf_singleton]
  by_cases hq : q' = q
  · subst q'
    rw [if_pos rfl, if_pos rfl, hport]
    exact Run.single (Port.Life.live hstep)
  · rw [if_neg hq, if_neg (Ne.symm hq)]
    exact Run.nil

theorem advances_setQueue (hcoh : s.Coherent cfg) (hport : s.port cfg q = some p)
    {lq : LogicalQueueInfo k} {e : Event P k} (hstep : Port.Step p e ⟨lq, p.phys⟩)
    (hsize : lq.size = p.info.size) : Advances cfg s (s.setQueue q lq) [(q, e)] := by
  rw [setQueue_eq_write hport]
  exact advances_write hcoh hport hstep _ (by simp [hsize])

omit [IngressPacket P] in
theorem physicalQueues_eq_none (hcoh : s.Coherent cfg) (hlq : s.logicalQueuesInfo q = none)
    (w : Fin m) : (s.workersInfo w).physicalQueues q = none := by
  cases hphys : (s.workersInfo w).physicalQueues q with
  | none => rfl
  | some phys =>
      have hsome := ((hcoh.deques w q).mp (by simp [hphys])).1
      simp [hlq] at hsome

omit [IngressPacket P] in
theorem coherent_register (hcoh : s.Coherent cfg) (hlq : s.logicalQueuesInfo q = none)
    (now : Ticks) :
    (s.getLogicalQueue cfg q (cfg.mapToWorker q) now).1.Coherent cfg := by
  have hfresh : ∀ w, q ∉ (s.workersInfo w).logicalQueueIds := by
    intro w hq
    have hmem := ((hcoh.mem_ids w q).mp hq).1
    simp [hlq] at hmem
  unfold getLogicalQueue
  rw [hlq]
  constructor
  · intro w
    by_cases hw : w = cfg.mapToWorker q
    · subst w
      simp only [Function.update_self]
      refine List.nodup_append.mpr ⟨hcoh.nodup _, List.nodup_singleton q, ?_⟩
      intro a ha b hb heq
      rw [List.mem_singleton.mp hb] at heq
      exact hfresh _ (heq ▸ ha)
    · simp only [Function.update_of_ne hw]
      exact hcoh.nodup w
  · intro w q'
    have hold := hcoh.mem_ids w q'
    by_cases hq : q' = q
    · subst q'
      by_cases hw : w = cfg.mapToWorker q
      · subst w
        simp
      · simp [hw, Ne.symm hw, hfresh]
    · by_cases hw : w = cfg.mapToWorker q
      · subst w
        simp [hq, hold]
      · simp [hw, hq, hold]
  · intro w q'
    have hold := hcoh.deques w q'
    by_cases hq : q' = q
    · subst q'
      by_cases hw : w = cfg.mapToWorker q
      · subst w
        simp
      · simp [hw, Ne.symm hw, physicalQueues_eq_none hcoh hlq w]
    · by_cases hw : w = cfg.mapToWorker q
      · subst w
        simp [hq, hold]
      · simp [hw, hq, hold]
  · intro w
    have hcount : ∀ ids : List ℕ, q ∉ ids →
        ids.map (fun x => ((Function.update s.logicalQueuesInfo q (some
          (LogicalQueueInfo.new s.capacity cfg.vnWeights now)) x).map
            fun lq => lq.size).getD 0) = ids.map s.queueSize := by
      intro ids hids
      apply List.map_congr_left
      intro x hx
      have hne : x ≠ q := fun heq => hids (heq ▸ hx)
      simp [queueSize, hne]
    by_cases hw : w = cfg.mapToWorker q
    · subst w
      simp only [Function.update_self, List.map_append, List.sum_append]
      have hnew : LogicalQueueInfo.size
          (LogicalQueueInfo.new s.capacity cfg.vnWeights now : LogicalQueueInfo k) = 0 := rfl
      have hsum := congrArg List.sum (hcount _ (hfresh (cfg.mapToWorker q)))
      have hsize := hcoh.size_eq (cfg.mapToWorker q)
      simp only [queueSize, List.map_singleton, Function.update_self, Option.map_some,
        Option.getD_some, hnew, List.sum_singleton, add_zero] at hsum ⊢
      rw [hsize]
      exact hsum.symm
    · simp only [Function.update_of_ne hw]
      have hsum := congrArg List.sum (hcount _ (hfresh w))
      rw [hcoh.size_eq w]
      exact hsum.symm

omit [IngressPacket P] in
theorem port_register (hcoh : s.Coherent cfg) (hlq : s.logicalQueuesInfo q = none)
    (now : Ticks) (q' : ℕ) :
    (s.getLogicalQueue cfg q (cfg.mapToWorker q) now).1.port cfg q' =
      if q' = q then some (Port.initial s.capacity cfg.vnWeights now) else s.port cfg q' := by
  have hdeques := physicalQueues_eq_none hcoh hlq (cfg.mapToWorker q)
  by_cases hq : q' = q
  · subst q'
    simp [getLogicalQueue, hlq, port, WorkerInfo.port, hdeques, Port.initial]
  · by_cases hw : cfg.mapToWorker q' = cfg.mapToWorker q
    · simp [getLogicalQueue, hlq, port, WorkerInfo.port, hq, hw]
    · simp [getLogicalQueue, hlq, port, WorkerInfo.port, hq, hw]

theorem getLogicalQueue_advances (hcoh : s.Coherent cfg) (q : ℕ) (now : Ticks) :
    Advances cfg s (s.getLogicalQueue cfg q (cfg.mapToWorker q) now).1 (s.creation q now) ∧
      ∃ p, (s.getLogicalQueue cfg q (cfg.mapToWorker q) now).1.port cfg q = some p ∧
        p.info = (s.getLogicalQueue cfg q (cfg.mapToWorker q) now).2 := by
  cases hlq : s.logicalQueuesInfo q with
  | some lq =>
      rcases exists_port hcoh hlq with ⟨phys, hport⟩
      have hcreation : s.creation q now = [] := by simp [creation, hlq]
      simp only [getLogicalQueue, hlq, hcreation]
      exact ⟨Advances.refl hcoh, ⟨lq, phys⟩, hport, rfl⟩
  | none =>
      have hnone := (port_eq_none hcoh).mpr hlq
      have hcreation : s.creation q now = [(q, .create now)] := by simp [creation, hlq]
      have hport := port_register hcoh hlq now
      refine ⟨⟨coherent_register hcoh hlq now, fun q' => ?_⟩, _, (hport q).trans (if_pos rfl), ?_⟩
      · rw [hcreation, logOf_singleton, hport]
        by_cases hq : q' = q
        · subst q'
          rw [if_pos rfl, if_pos rfl, hnone]
          exact Run.single (Port.Life.create _ _)
        · rw [if_neg hq, if_neg (Ne.symm hq)]
          exact Run.nil
      · simp [getLogicalQueue, hlq, Port.initial]

end Slots

end QueueingLogicVN

end Cmcs
