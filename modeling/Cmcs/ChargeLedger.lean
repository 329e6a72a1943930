import Cmcs.QueueingRun
import Mathlib.Data.List.DropRight
import Mathlib.Tactic

/-!
# Every transmitted packet is charged exactly once

`select_vn` charges the head packet of the VN it chooses and the packet leaves
in a later scan.  In between the decision is cached, so the packets charged so
far are the packets output so far and, if a decision is pending, the head packet
of the VN it names.  The two counters of a VN are what it was given minus what
it was charged.
-/

namespace Cmcs

open TransitionSystem

variable {P : Type} {m k : ℕ}

def Event.charged : Event P k → Option (Fin k × QE P)
  | .select sel => some (sel.vn, sel.head)
  | _ => none

def Event.departure : Event P k → Option (Fin k × QE P)
  | .release _ v qe => some (v, qe)
  | _ => none

theorem filterMap_departure (events : List (Event P k)) :
    events.filterMap Event.departure = (releases events).map fun d => d.2 := by
  rw [releases, List.map_filterMap]
  apply List.filterMap_congr
  intro e _
  cases e <;> rfl

/-- The events since the sweep last reset the deficit of VN `v`. -/
def sinceReset (v : Fin k) (events : List (Event P k)) : List (Event P k) :=
  events.rtakeWhile fun e => !e.resets v

theorem sinceReset_concat (v : Fin k) (events : List (Event P k)) (e : Event P k) :
    sinceReset v (events ++ [e]) = if e.resets v then [] else sinceReset v events ++ [e] := by
  unfold sinceReset
  rw [List.rtakeWhile_concat]
  cases he : e.resets v <;> simp

theorem sinceReset_create (v : Fin k) (created : Ticks) (events : List (Event P k))
    (f : Event P k → ℤ) (hcreate : f (.create created) = 0) :
    tally f (sinceReset v (.create created :: events)) = tally f (sinceReset v events) := by
  induction events using List.reverseRecOn with
  | nil =>
      have hkeep : (Event.create created : Event P k).resets v = false := rfl
      simp [sinceReset, hkeep, List.rtakeWhile, tally, hcreate]
  | append_singleton events e ih =>
      rw [← List.cons_append, sinceReset_concat, sinceReset_concat]
      split
      · rfl
      · rw [tally_append, tally_append, ih]

def bytesTaken (v : Fin k) (dequeues : List (Ticks × Fin k × QE P)) : ℤ :=
  (dequeues.map fun d => if d.2.1 = v then (d.2.2.pktSize : ℤ) else 0).sum

theorem tally_releasedBytes (v : Fin k) (events : List (Event P k)) :
    tally (Event.releasedBytes v) events = bytesTaken v (releases events) := by
  induction events with
  | nil => rfl
  | cons e rest ih =>
      rw [← List.singleton_append, tally_append, ih, releases_append, tally_singleton,
        releases_singleton]
      cases e with
      | release now i qe => simp [Event.releasedBytes, Event.released, bytesTaken]
      | _ => simp [Event.releasedBytes, Event.released, bytesTaken]

namespace Port

def pendingCharge (p : Port P k) : List (Fin k × QE P) :=
  match p.info.pendingVn with
  | some v => ((p.phys v).head?.map fun qe => (v, qe)).toList
  | none => []

variable [IngressPacket P] {p p' : Port P k} {e : Event P k} {events : List (Event P k)}

/-- One step: what was owed and is newly charged is what leaves and is owed. -/
theorem charged_step (hwf : p.WellFormed) (hstep : Step p e p') :
    p.pendingCharge ++ e.charged.toList = e.departure.toList ++ p'.pendingCharge := by
  cases hstep with
  | push v color item =>
      have hsame : (p.push v color item).pendingCharge = p.pendingCharge := by
        unfold pendingCharge
        rw [push_pendingVn]
        cases hpending : p.info.pendingVn with
        | none => rfl
        | some i =>
            simp only
            rw [push_head _ _ _ _ (hwf.pending_ne_nil hpending)]
      simp [hsame, Event.charged, Event.departure]
  | sweep now =>
      simp [pendingCharge, Port.sweep, LogicalQueueInfo.sweep_eq, Event.charged,
        Event.departure]
  | @select sel lq' hfree _ hselect =>
      have hspec := p.info.selectVn_selected hwf.nodup hselect
      simp [pendingCharge, hfree, hspec.head_eq, Event.charged, Event.departure]
  | @release now v qe hpending hhead =>
      simp [pendingCharge, hpending, hhead, Port.release, LogicalQueueInfo.depart_eq,
        LogicalQueueInfo.conform, Event.charged, Event.departure]
  | defer => simp [Event.charged, Event.departure]
  | setVnCapacity => simp [pendingCharge, Event.charged, Event.departure,
      LogicalQueueInfo.modifyVn]
  | setQueueCapacity => simp [pendingCharge, Event.charged, Event.departure,
      LogicalQueueInfo.setCapacities]
  | setRate => simp [pendingCharge, Event.charged, Event.departure]

theorem charged_run (hwf : p.WellFormed) (hrun : Run Step p events p') :
    p.pendingCharge ++ events.filterMap Event.charged =
      ((releases events).map fun d => d.2) ++ p'.pendingCharge := by
  rw [← filterMap_departure]
  have hwell := hrun.strengthen (fun _ _ _ hs hstep => WellFormed.step hs hstep) hwf
  exact hwell.conserve pendingCharge
    fun _ _ _ hstep => charged_step hstep.1 hstep.2

/-- The deficit is the replenishment minus the Phase-2 charges since the last
reset. -/
theorem weightedDeficit_since_reset (hwf : p.WellFormed) (hrun : Run Step p events p') (v : Fin k)
    (hstart : (p.vn v).weightedDeficit = 0) :
    (p'.vn v).weightedDeficit =
      (p.vn v).weight * quantum * tally (Event.rounds v) (sinceReset v events) -
        tally (Event.dwrrCharge v) (sinceReset v events) := by
  induction hrun with
  | nil => simp [sinceReset, hstart]
  | @snoc events q q' e hbefore hstep ih =>
      have hq := hwf.run hbefore
      have hweight := weight_run hwf hbefore v
      rw [weightedDeficit_step hq hstep v, sinceReset_concat, hweight, ih]
      cases he : e.resets v with
      | true => simp
      | false =>
          simp only [Bool.false_eq_true, if_false, tally_append, tally_singleton]
          ring

end Port

/-- The green bytes which the call offers to VN `v` of queue `q`, accepted or
not. -/
def Op.greenBytes [IngressPacket P] (q : ℕ) (v : Fin k) : Op P m → ℤ
  | .pushFront qid vn color item _ =>
      if qid = q ∧ vn = v ∧ color = 0 then ingressSize item else 0
  | _ => 0

namespace QueueingLogicVN

variable [IngressPacket P] {cfg : Config m k} {s s' : QueueingLogicVN P m k}
variable {capacity : ℕ} {ops : List (Op P m)} {history : List (Call P m k)}

omit [IngressPacket P] in
theorem tally_eq_zero {f : Event P k → ℤ} {events : List (Event P k)}
    (hzero : ∀ e ∈ events, f e = 0) : tally f events = 0 := by
  apply List.sum_eq_zero
  intro x hx
  obtain ⟨e, he, rfl⟩ := List.mem_map.mp hx
  exact hzero e he

theorem StepSpec.greenOffered_eq {call : Call P m k} (hspec : StepSpec cfg s s' call) (q : ℕ)
    (v : Fin k) :
    tally (Event.greenOffered v) (logOf q call.log) = call.op.greenBytes q v := by
  have hcontrol : ∀ (reading : Option Ticks) (log : Log P k),
      (∀ entry ∈ log, entry.2.Control reading) →
      tally (Event.greenOffered v) (logOf q log) = 0 := by
    intro reading log hlog
    apply tally_eq_zero
    intro e he
    have hevent := hlog (q, e) (mem_logOf.mp he)
    cases e with
    | push => simp [Event.Control] at hevent
    | _ => rfl
  cases hspec with
  | @pushFront qid vn color item now accepted i hi hpush =>
      rw [logOf_append, tally_append, hcontrol _ _ (creation_control qid now),
        logOf_singleton, zero_add]
      subst vn
      by_cases hq : qid = q
      · simp only [hq, if_true, tally_singleton, Event.greenOffered, Op.greenBytes,
          true_and, Fin.ext_iff]
        simp only [and_comm]
      · simp [Op.greenBytes, hq]
  | @scan w now outcome log hscan =>
      have hzero : tally (Event.greenOffered v) (logOf q log) = 0 := by
        apply tally_eq_zero
        intro e he
        have hevent := hscan.scannedAt q e he
        cases e with
        | push => simp [Event.ScannedAt] at hevent
        | _ => rfl
      rw [hzero]
      rfl
  | @setter op log hop hlog =>
      rw [hcontrol _ log hlog]
      cases op with
      | pushFront => exact absurd hop (by simp [Op.IsSetter])
      | _ => rfl

theorem greenOffered_run (hrun : run cfg (initial capacity) ops = some (s, history)) (q : ℕ)
    (v : Fin k) :
    tally (Event.greenOffered v) (logOf q (history.flatMap Call.log)) =
      (ops.map (Op.greenBytes q v)).sum := by
  apply run_induction (I := fun ops _ history =>
    tally (Event.greenOffered v) (logOf q (history.flatMap Call.log)) =
      (ops.map (Op.greenBytes q v)).sum) rfl ?_ hrun
  intro ops s history s' call _ hbefore _ hspec
  rw [List.flatMap_append, List.flatMap_singleton, logOf_append, tally_append, hbefore,
    hspec.greenOffered_eq]
  simp

/-- The books of VN `v` of queue `q`, which is `p`: credit, deficit and the
charges against what has been output. -/
structure Balanced (cfg : Config m k) (ops : List (Op P m)) (history : List (Call P m k))
    (q : ℕ) (p : Port P k) (v : Fin k) : Prop where
  credit : (p.vn v).greenCredit =
    (ops.map (Op.greenBytes q v)).sum -
      tally (Event.greenCharge v) (logOf q (history.flatMap Call.log))
  deficit : (p.vn v).weightedDeficit =
    cfg.vnWeights v * quantum *
        tally (Event.rounds v) (sinceReset v (logOf q (history.flatMap Call.log))) -
      tally (Event.dwrrCharge v) (sinceReset v (logOf q (history.flatMap Call.log)))
  charges : tally (Event.greenCharge v) (logOf q (history.flatMap Call.log)) +
      tally (Event.dwrrCharge v) (logOf q (history.flatMap Call.log)) =
    bytesTaken v (history.filterMap (Call.dequeued q)) + p.pendingBytes v

/-- The ledger balances in every reachable state, and the packets charged are,
in order, the packets output and the one which a pending decision holds. -/
theorem charged_exactly_once (cfg : Config m k) (capacity : ℕ) (ops : List (Op P m))
    (hops : ∀ op ∈ ops, op.VnBelow k) :
    ∃ s history, run cfg (initial capacity) ops = some (s, history) ∧
      ∀ q p, s.port cfg q = some p →
        (logOf q (history.flatMap Call.log)).filterMap Event.charged =
            ((history.filterMap (Call.dequeued q)).map fun d => d.2) ++ p.pendingCharge ∧
          ∀ v, Balanced cfg ops history q p v := by
  obtain ⟨s, history, hrun⟩ := run_isSome cfg capacity ops hops
  refine ⟨s, history, hrun, fun q p hport => ?_⟩
  have hreleases := releases_run hrun q
  have hoffered := greenOffered_run hrun q
  obtain ⟨capacity', created, rest, hevents, hrest⟩ := run_port hrun hport
  have hinit := Port.wellFormed_initial (P := P) capacity' cfg.vnWeights_pos created
  have hcreate : ∀ f : Event P k → ℤ, f (.create created) = 0 →
      tally f (.create created :: rest) = tally f rest := by
    intro f hf
    rw [← List.singleton_append, tally_append, tally_singleton, hf, zero_add]
  have hsame : releases rest = history.filterMap (Call.dequeued q) := by
    rw [← hreleases, hevents, ← List.singleton_append, releases_append]
    rfl
  constructor
  · have hcharged := Port.charged_run hinit hrest
    have hnone : Event.charged (.create created : Event P k) = none := rfl
    rw [hevents, List.filterMap_cons_none hnone, ← hsame]
    simpa [Port.pendingCharge, Port.initial, LogicalQueueInfo.new] using hcharged
  · intro v
    constructor
    · have hcredit := Port.greenCredit_run hinit hrest v
      rw [← hoffered v, hevents, hcreate _ rfl, hcreate _ rfl, hcredit]
      simp [Port.initial, LogicalQueueInfo.new]
    · have hdeficit := Port.weightedDeficit_since_reset hinit hrest v rfl
      rw [hevents, sinceReset_create v created rest _ rfl,
        sinceReset_create v created rest _ rfl, hdeficit]
      rfl
    · have hpending := Port.pendingBytes_run hinit hrest v
      have hzero : (Port.initial capacity' cfg.vnWeights created : Port P k).pendingBytes v =
          0 := by
        simp [Port.pendingBytes, Port.initial, LogicalQueueInfo.new]
      have hselected : tally (Event.selectedBytes v) rest =
          tally (Event.greenCharge v) rest + tally (Event.dwrrCharge v) rest :=
        tally_add _ _ rest
      rw [hevents, hcreate _ rfl, hcreate _ rfl, ← hsame, ← tally_releasedBytes]
      omega

theorem charged_exactly_once_two_packets :
    ∃ s history, run Config.single (initial 4)
        [.pushFront 0 0 0 (some 100) 1, .pushFront 0 0 1 (some 200) 1, .scan 0 2] =
          some (s, history) ∧
      ∀ q p, s.port Config.single q = some p →
        (logOf q (history.flatMap Call.log)).filterMap Event.charged =
            ((history.filterMap (Call.dequeued q)).map fun d => d.2) ++ p.pendingCharge ∧
          ∀ v, Balanced Config.single
            [.pushFront 0 0 0 (some 100) 1, .pushFront 0 0 1 (some 200) 1, .scan 0 2]
            history q p v :=
  charged_exactly_once Config.single 4 _ (by simp [Op.VnBelow])

end QueueingLogicVN

end Cmcs
