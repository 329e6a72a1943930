import Cmcs.QueueingRun
import Mathlib.Tactic

/-!
# Representation invariant of the scheduler

In every state which calls can reach, the four layers agree: deques, VN records,
logical queues and workers.  The one part of the invariant which looks back is
`empty_since`: for an empty VN which is still active it is the reading of the
VN's last dequeue, because a VN joins the active set with a packet and can only
become empty in a dequeue.
-/

namespace Cmcs

open TransitionSystem

variable {P : Type} {m k : ℕ}

def lastTime (i : Fin k) (dequeues : List (Ticks × Fin k × QE P)) : Option Ticks :=
  (dequeues.filter fun d => d.2.1 = i).getLast?.map fun d => d.1

@[simp] theorem lastTime_concat (i v : Fin k) (dequeues : List (Ticks × Fin k × QE P))
    (now : Ticks) (qe : QE P) :
    lastTime i (dequeues ++ [(now, v, qe)]) =
      if v = i then some now else lastTime i dequeues := by
  unfold lastTime
  rw [List.filter_append]
  by_cases hv : v = i
  · simp [hv]
  · simp [hv]

theorem exists_of_lastTime {i : Fin k} {dequeues : List (Ticks × Fin k × QE P)} {t : Ticks}
    (hlast : lastTime i dequeues = some t) : ∃ v qe, (t, v, qe) ∈ dequeues := by
  unfold lastTime at hlast
  obtain ⟨⟨t', v, qe⟩, hd, heq⟩ := Option.map_eq_some_iff.mp hlast
  have hmem := List.mem_of_getLast? hd
  simp only at heq
  subst t'
  exact ⟨v, qe, (List.mem_filter.mp hmem).1⟩

namespace Port

variable [IngressPacket P] {p p' : Port P k} {e : Event P k} {events : List (Event P k)}

/-- An active VN without packets remembers its last dequeue. -/
def EmptySince (events : List (Event P k)) (p : Port P k) : Prop :=
  ∀ i ∈ p.info.activeSet, (p.vn i).size = 0 →
    lastTime i (releases events) = some (p.vn i).emptySince

theorem active_of_push {v i : Fin k} {color : ℕ} {item : Option P}
    (hi : i ∈ (p.push v color item).info.activeSet) :
    i ∈ p.info.activeSet ∨ p.full v = false ∧ v = i := by
  unfold Port.push at hi
  cases hfull : p.full v with
  | true =>
      simp only [hfull, if_true, LogicalQueueInfo.accrue_eq] at hi
      exact Or.inl hi
  | false =>
      simp only [hfull, Bool.false_eq_true, if_false, LogicalQueueInfo.accrue_eq,
        LogicalQueueInfo.accept_eq] at hi
      split at hi
      · exact Or.inl hi
      · cases List.mem_append.mp hi with
        | inl hmem => exact Or.inl hmem
        | inr hnew => exact Or.inr ⟨rfl, (List.mem_singleton.mp hnew).symm⟩

/-- An empty member was an empty member before, or this step has emptied it. -/
theorem empty_member_step (hwf : p.WellFormed) (hstep : Step p e p') {i : Fin k}
    (hi : i ∈ p'.info.activeSet) (hsize : (p'.vn i).size = 0) :
    (i ∈ p.info.activeSet ∧ (p.vn i).size = 0 ∧
        (p'.vn i).emptySince = (p.vn i).emptySince ∧ ∀ now qe, e ≠ .release now i qe) ∨
      ∃ now qe, e = .release now i qe ∧ (p'.vn i).emptySince = now := by
  cases hstep with
  | push v color item =>
      rw [push_vn] at hsize ⊢
      simp only at hsize
      have hold : (p.vn i).size = 0 := by omega
      have hne : ¬(p.full v = false ∧ v = i) := by
        intro hjoin
        rw [if_pos hjoin] at hsize
        omega
      exact Or.inl ⟨(active_of_push hi).resolve_right hne, hold, rfl, by simp⟩
  | sweep now =>
      simp only [Port.sweep, LogicalQueueInfo.sweep_eq] at hi hsize
      refine Or.inl ⟨(List.mem_filter.mp hi).1, hsize, ?_, by simp⟩
      simp only [Port.sweep, LogicalQueueInfo.sweep_eq]
  | select _ _ hselect =>
      have hspec := p.info.selectVn_selected hwf.nodup hselect
      rw [hspec.result] at hi hsize ⊢
      exact Or.inl ⟨hi, hsize, rfl, by simp⟩
  | defer => exact Or.inl ⟨hi, hsize, rfl, by simp⟩
  | @release now v qe hpending hhead =>
      simp only [Port.release, LogicalQueueInfo.depart_eq, LogicalQueueInfo.conform]
        at hi hsize ⊢
      by_cases hv : v = i
      · subst i
        simp only [if_true] at hsize
        exact Or.inr ⟨now, qe, rfl, by simp [hsize]⟩
      · simp only [hv, if_false, Nat.sub_zero] at hsize
        exact Or.inl ⟨hi, hsize, by simp [hv], by simp [hv]⟩
  | setVnCapacity v c =>
      have hvn := p.info.setVnCapacity_vnQueues v i c
      have hsince := congrArg VNQueueInfo.emptySince hvn
      simp only [Port.vn, hvn] at hsize
      exact Or.inl ⟨hi, hsize, hsince, by simp⟩
  | setQueueCapacity c => exact Or.inl ⟨hi, hsize, rfl, by simp⟩
  | setRate bps => exact Or.inl ⟨hi, hsize, rfl, by simp⟩

omit [IngressPacket P] in
theorem lastTime_of_not_released {i : Fin k} (hother : ∀ now qe, e ≠ .release now i qe) :
    lastTime i (releases (events ++ [e])) = lastTime i (releases events) := by
  rw [releases_append, releases_singleton]
  cases e with
  | release now v qe =>
      have hv : v ≠ i := fun heq => hother now qe (by rw [heq])
      simp only [Event.released, Option.toList_some, lastTime_concat, if_neg hv]
  | _ => simp [Event.released]

theorem EmptySince.step (hwf : p.WellFormed) (hempty : EmptySince events p)
    (hstep : Step p e p') : EmptySince (events ++ [e]) p' := by
  intro i hi hsize
  cases empty_member_step hwf hstep hi hsize with
  | inl hold =>
      obtain ⟨hactive, hsize', hsince, hother⟩ := hold
      rw [lastTime_of_not_released hother, hsince]
      exact hempty i hactive hsize'
  | inr hrelease =>
      obtain ⟨now, qe, rfl, hsince⟩ := hrelease
      rw [releases_append, releases_singleton, hsince]
      simp [Event.released]

theorem emptySince_run (hwf : p.WellFormed) (hrun : Run Step p events p')
    (hstart : EmptySince [] p) : EmptySince events p' := by
  apply hrun.history (I := EmptySince) ?_ hstart
  intro events q e q' hbefore hempty hstep
  exact hempty.step (hwf.run hbefore) hstep

end Port

namespace QueueingLogicVN

def lastDequeue (q : ℕ) (i : Fin k) (history : List (Call P m k)) : Option Ticks :=
  lastTime i (history.filterMap (Call.dequeued q))

/-- The layers of `QueueingLogicVN` after the calls of `history`.  That VN ids
in the active sets are below `nb_vns`, and that a worker holds `nb_vns` deques
for each of its queues, is in the types. -/
structure RepInvariant (cfg : Config m k) (s : QueueingLogicVN P m k)
    (history : List (Call P m k)) : Prop where
  vn_size : ∀ q lq, s.logicalQueuesInfo q = some lq →
    ∃ deques, (s.workersInfo (cfg.mapToWorker q)).physicalQueues q = some deques ∧
      ∀ i, (lq.vnQueues i).size = (deques i).length
  queue_size : ∀ q lq, s.logicalQueuesInfo q = some lq →
    lq.size = ∑ i, (lq.vnQueues i).size
  worker_size : ∀ w, (s.workersInfo w).size =
    ((s.workersInfo w).logicalQueueIds.map s.queueSize).sum
  ids_nodup : ∀ w, (s.workersInfo w).logicalQueueIds.Nodup
  mem_ids : ∀ w q, q ∈ (s.workersInfo w).logicalQueueIds ↔
    (s.logicalQueuesInfo q).isSome ∧ cfg.mapToWorker q = w
  deques : ∀ w q, ((s.workersInfo w).physicalQueues q).isSome ↔
    (s.logicalQueuesInfo q).isSome ∧ cfg.mapToWorker q = w
  active_nodup : ∀ q lq, s.logicalQueuesInfo q = some lq → lq.activeSet.Nodup
  active : ∀ q lq, s.logicalQueuesInfo q = some lq →
    ∀ i, 0 < (lq.vnQueues i).size → i ∈ lq.activeSet
  pending : ∀ q lq, s.logicalQueuesInfo q = some lq →
    ∀ i, lq.pendingVn = some i → 0 < (lq.vnQueues i).size ∧ i ∈ lq.activeSet
  empty_since : ∀ q lq, s.logicalQueuesInfo q = some lq →
    ∀ i ∈ lq.activeSet, (lq.vnQueues i).size = 0 →
      lastDequeue q i history = some (lq.vnQueues i).emptySince
  empty_since_ne_min : (∀ call ∈ history, call.op.reading ≠ some timePointMin) →
    ∀ q lq, s.logicalQueuesInfo q = some lq →
      ∀ i ∈ lq.activeSet, (lq.vnQueues i).size = 0 →
        (lq.vnQueues i).emptySince ≠ timePointMin

theorem exists_reading_of_lastDequeue {q : ℕ} {i : Fin k} {history : List (Call P m k)}
    {t : Ticks} (hlast : lastDequeue q i history = some t) :
    ∃ call ∈ history, call.op.reading = some t := by
  obtain ⟨v, qe, hmem⟩ := exists_of_lastTime hlast
  obtain ⟨call, hcall, hdequeued⟩ := List.mem_filterMap.mp hmem
  refine ⟨call, hcall, ?_⟩
  unfold Call.dequeued at hdequeued
  split at hdequeued
  next now qid v' qe' hop _ =>
    split at hdequeued
    · simp only [Option.some.injEq, Prod.mk.injEq] at hdequeued
      rw [hop, ← hdequeued.1]
      rfl
    · simp at hdequeued
  next => simp at hdequeued

variable [IngressPacket P] {cfg : Config m k} {s : QueueingLogicVN P m k} {capacity : ℕ}
variable {ops : List (Op P m)} {history : List (Call P m k)}

theorem empty_since_run (hrun : run cfg (initial capacity) ops = some (s, history)) {q : ℕ}
    {p : Port P k} (hport : s.port cfg q = some p) :
    ∀ i ∈ p.info.activeSet, (p.vn i).size = 0 →
      lastDequeue q i history = some (p.vn i).emptySince := by
  have hreleases := releases_run hrun q
  obtain ⟨capacity', created, rest, hevents, hrest⟩ := run_port hrun hport
  have hstart : Port.EmptySince []
      (Port.initial capacity' cfg.vnWeights created : Port P k) := by
    intro i hi
    simp [Port.initial, LogicalQueueInfo.new] at hi
  have hempty := Port.emptySince_run
    (Port.wellFormed_initial capacity' cfg.vnWeights_pos created) hrest hstart
  have hsame : releases rest = history.filterMap (Call.dequeued q) := by
    rw [← hreleases, hevents, ← List.singleton_append, releases_append]
    rfl
  intro i hi hsize
  rw [lastDequeue, ← hsame]
  exact hempty i hi hsize

/-- The representation invariant holds in every reachable state, and every
sequence of calls with VN ids below `nb_vns` reaches one. -/
theorem representation_invariant (cfg : Config m k) (capacity : ℕ) (ops : List (Op P m))
    (hops : ∀ op ∈ ops, op.VnBelow k) :
    ∃ s history, run cfg (initial capacity) ops = some (s, history) ∧
      RepInvariant cfg s history := by
  obtain ⟨s, history, hrun⟩ := run_isSome cfg capacity ops hops
  have hcoh := run_coherent hrun
  have hwf := run_wellFormed hrun
  have hsince : ∀ q lq, s.logicalQueuesInfo q = some lq →
      ∀ i ∈ lq.activeSet, (lq.vnQueues i).size = 0 →
        lastDequeue q i history = some (lq.vnQueues i).emptySince := by
    intro q lq hlq
    obtain ⟨phys, hport⟩ := exists_port hcoh hlq
    exact empty_since_run hrun hport
  refine ⟨s, history, hrun, ?_⟩
  constructor
  · intro q lq hlq
    obtain ⟨phys, hport⟩ := exists_port hcoh hlq
    exact ⟨phys, (port_eq_some.mp hport).2, (hwf q _ hport).size_eq⟩
  · intro q lq hlq
    obtain ⟨phys, hport⟩ := exists_port hcoh hlq
    exact (hwf q _ hport).total
  · exact hcoh.size_eq
  · exact hcoh.nodup
  · exact hcoh.mem_ids
  · exact hcoh.deques
  · intro q lq hlq
    obtain ⟨phys, hport⟩ := exists_port hcoh hlq
    exact (hwf q _ hport).nodup
  · intro q lq hlq i hi
    obtain ⟨phys, hport⟩ := exists_port hcoh hlq
    exact (hwf q _ hport).active i (Nat.pos_iff_ne_zero.mp hi)
  · intro q lq hlq i hi
    obtain ⟨phys, hport⟩ := exists_port hcoh hlq
    have hne := (hwf q _ hport).pending i hi
    exact ⟨Nat.pos_iff_ne_zero.mpr hne, (hwf q _ hport).active i hne⟩
  · exact hsince
  · intro hreadings q lq hlq i hi hsize hmin
    have hlast := hsince q lq hlq i hi hsize
    rw [hmin] at hlast
    obtain ⟨call, hcall, hreading⟩ := exists_reading_of_lastDequeue hlast
    exact hreadings call hcall hreading

theorem representation_invariant_one_packet :
    ∃ s history, run Config.single (initial 4)
        [.pushFront 0 0 0 (some 100) 1, .scan 0 2] = some (s, history) ∧
      RepInvariant Config.single s history :=
  representation_invariant Config.single 4 _ (by simp [Op.VnBelow])

end QueueingLogicVN

end Cmcs
