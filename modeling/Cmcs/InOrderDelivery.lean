import Cmcs.QueueingRun
import Mathlib.Tactic

/-!
# In-order delivery

Every deque is a FIFO over the whole run: what `push_front` has accepted for a
queue and VN is what `pop_back` has output for them, in the same order, followed
by what the deque still holds.  The rejection of a packet leaves a credit and
nothing else.
-/

namespace Cmcs

open TransitionSystem

variable {P : Type} {m k : ℕ}

def QE.pair (qe : QE P) : Option P × ℕ := (qe.e, qe.color)

def Event.accepted (v : Fin k) : Event P k → Option (Option P × ℕ)
  | .push i color item true => if i = v then some (item, color) else none
  | _ => none

/-- The pair which an accepted `push_front(q, v, ...)` adds. -/
def Call.accepted (q : ℕ) (v : Fin k) (call : Call P m k) : Option (Option P × ℕ) :=
  match call.op, call.result with
  | .pushFront qid vn color item _, .pushed true =>
      if qid = q ∧ vn = v then some (item, color) else none
  | _, _ => none

def takenFrom (v : Fin k) (dequeues : List (Ticks × Fin k × QE P)) : List (Option P × ℕ) :=
  dequeues.filterMap fun d => if d.2.1 = v then some d.2.2.pair else none

def Event.taken (v : Fin k) : Event P k → Option (Option P × ℕ)
  | .release _ i qe => if i = v then some qe.pair else none
  | _ => none

theorem filterMap_taken (v : Fin k) (events : List (Event P k)) :
    events.filterMap (Event.taken v) = takenFrom v (releases events) := by
  rw [takenFrom, releases, List.filterMap_filterMap]
  apply List.filterMap_congr
  intro e _
  cases e <;> rfl

@[simp] theorem takenFrom_append (v : Fin k) (first second : List (Ticks × Fin k × QE P)) :
    takenFrom v (first ++ second) = takenFrom v first ++ takenFrom v second :=
  List.filterMap_append

namespace Port

variable [IngressPacket P] {p p' : Port P k} {e : Event P k} {events : List (Event P k)}

/-- One step of a deque: what it held and gained is what it lost and holds. -/
theorem fifo_step (hstep : Step p e p') (v : Fin k) :
    (p.phys v).map QE.pair ++ (e.accepted v).toList =
      (e.taken v).toList ++ (p'.phys v).map QE.pair := by
  cases hstep with
  | push i color item =>
      unfold Port.push
      cases hfull : p.full i with
      | true => simp [Event.accepted, Event.taken]
      | false =>
          by_cases hi : i = v
          · subst i
            simp [Event.accepted, Event.taken, Port.element, QE.pair]
          · simp [Event.accepted, Event.taken, hi, Ne.symm hi]
  | @release now i qe _ hhead =>
      obtain ⟨rest, hphys⟩ := List.head?_eq_some_iff.mp hhead
      by_cases hi : i = v
      · subst i
        simp [Event.accepted, Event.taken, Port.release, hphys]
      · simp [Event.accepted, Event.taken, Port.release, hi, Ne.symm hi]
  | _ => simp [Event.accepted, Event.taken, Port.sweep]

theorem fifo_run (hrun : Run Step p events p') (v : Fin k) :
    (p.phys v).map QE.pair ++ events.filterMap (Event.accepted v) =
      takenFrom v (releases events) ++ (p'.phys v).map QE.pair := by
  rw [← filterMap_taken]
  exact hrun.conserve (fun p => (p.phys v).map QE.pair)
    fun _ _ _ hstep => fifo_step hstep v

end Port

namespace QueueingLogicVN

section Content

variable (cfg : Config m k) (s : QueueingLogicVN P m k)

def deque (q : ℕ) (v : Fin k) : List (QE P) :=
  match (s.workersInfo (cfg.mapToWorker q)).physicalQueues q with
  | some deques => deques v
  | none => []

end Content

variable [IngressPacket P] {cfg : Config m k} {s s' : QueueingLogicVN P m k}
variable {capacity : ℕ} {ops : List (Op P m)} {history : List (Call P m k)}

theorem StepSpec.accepted_eq {call : Call P m k} (hspec : StepSpec cfg s s' call) (q : ℕ)
    (v : Fin k) :
    (logOf q call.log).filterMap (Event.accepted v) = (call.accepted q v).toList := by
  have hcontrol : ∀ (reading : Option Ticks) (log : Log P k),
      (∀ entry ∈ log, entry.2.Control reading) →
      (logOf q log).filterMap (Event.accepted v) = [] := by
    intro reading log hlog
    apply filterMap_logOf_eq_nil
    intro entry hentry
    have hevent := hlog entry hentry
    cases hcase : entry.2 with
    | push => simp [hcase, Event.Control] at hevent
    | _ => rfl
  cases hspec with
  | @pushFront qid vn color item now accepted i hi hpush =>
      rw [logOf_append, List.filterMap_append, hcontrol _ _ (creation_control qid now),
        logOf_singleton]
      subst vn
      cases accepted with
      | false => split <;> rfl
      | true =>
          by_cases hq : qid = q
          · by_cases hv : i = v
            · simp [Call.accepted, Event.accepted, hq, hv]
            · have hne : (i : ℕ) ≠ v := fun heq => hv (Fin.ext heq)
              simp [Call.accepted, Event.accepted, hq, hv, hne]
          · simp [Call.accepted, hq]
  | @scan w now outcome log hscan =>
      have hnone : (logOf q log).filterMap (Event.accepted v) = [] := by
        apply List.filterMap_eq_nil_iff.mpr
        intro e he
        have hevent := hscan.scannedAt q e he
        cases e with
        | push => simp [Event.ScannedAt] at hevent
        | _ => rfl
      rw [hnone]
      rfl
  | @setter op log hop hlog =>
      rw [hcontrol _ log hlog]
      cases op with
      | pushFront => exact absurd hop (by simp [Op.IsSetter])
      | _ => rfl

theorem accepted_run (hrun : run cfg (initial capacity) ops = some (s, history)) (q : ℕ)
    (v : Fin k) :
    (logOf q (history.flatMap Call.log)).filterMap (Event.accepted v) =
      history.filterMap (Call.accepted q v) :=
  filterMap_log_run (fun _ _ _ hspec => hspec.accepted_eq q v) hrun

/-- The FIFO law of every deque of the scheduler. -/
theorem fifo_history (hrun : run cfg (initial capacity) ops = some (s, history)) (q : ℕ)
    (v : Fin k) :
    history.filterMap (Call.accepted q v) =
      takenFrom v (history.filterMap (Call.dequeued q)) ++
        (s.deque cfg q v).map QE.pair := by
  rw [← accepted_run hrun, ← releases_run hrun]
  have hlife := run_life hrun q
  cases Port.Life.cases_run hlife with
  | inl hnone =>
      obtain ⟨hevents, hport⟩ := hnone
      have hlq := (port_eq_none (run_coherent hrun)).mp hport
      have hdeques := physicalQueues_eq_none (run_coherent hrun) hlq (cfg.mapToWorker q)
      simp [hevents, deque, hdeques, takenFrom]
  | inr hsome =>
      obtain ⟨capacity', created, rest, p, hevents, hport, hrest⟩ := hsome
      have hfifo := Port.fifo_run hrest v
      have hphys := (port_eq_some.mp hport).2
      have hcreate : Event.accepted v (.create created : Event P k) = none := rfl
      rw [hevents, List.filterMap_cons_none hcreate, ← List.singleton_append,
        releases_append]
      simpa [deque, hphys, Port.initial, Event.released] using hfifo

theorem outputs_mapped (hrun : run cfg (initial capacity) ops = some (s, history)) :
    ∀ call ∈ history, ∀ w now q v qe, call.op = .scan w now →
      call.result = .scanned (.output q v qe) → cfg.mapToWorker q = w := by
  apply run_induction (I := fun _ _ history => ∀ call ∈ history, ∀ w now q v qe,
    call.op = .scan w now → call.result = .scanned (.output q v qe) →
      cfg.mapToWorker q = w) (by simp) ?_ hrun
  intro ops s history s' call _ hbefore _ hspec call' hcall' w now q v qe hop hresult
  cases List.mem_append.mp hcall' with
  | inl hmem => exact hbefore call' hmem w now q v qe hop hresult
  | inr hlast =>
      rw [List.mem_singleton.mp hlast] at hop hresult
      cases hspec with
      | pushFront => simp at hop
      | scan hscan =>
          simp only [Op.scan.injEq] at hop
          simp only [Result.scanned.injEq] at hresult
          rw [← hop.1]
          exact (hscan.output q v qe hresult).1
      | setter => simp at hresult

/-! ## What a push leaves behind -/

theorem size_le_of_accepted (hcoh : s.Coherent cfg) {q vn color : ℕ} {item : Option P}
    {now : Ticks} (hpush : s.pushFront cfg q vn color item now = some (s', true))
    {lq : LogicalQueueInfo k} (hlq : s'.logicalQueuesInfo q = some lq) {v : Fin k}
    (hv : (v : ℕ) = vn) : (lq.vnQueues v).size ≤ (lq.vnQueues v).capacity := by
  obtain ⟨-, p, hport, hinfo⟩ := getLogicalQueue_advances hcoh q now
  rw [pushFront_eq (vnIndex_eq_some.mpr hv) hport hinfo] at hpush
  simp only [Option.some.injEq, Prod.mk.injEq, Bool.not_eq_true'] at hpush
  obtain ⟨rfl, hroom⟩ := hpush
  simp only [write, setWorker, setQueue, Function.update_self, Option.some.injEq] at hlq
  subst lq
  have hvn := Port.push_vn p v color item v
  rw [if_pos ⟨hroom, rfl⟩] at hvn
  simp only [Port.full, decide_eq_false_iff_not, Port.vn] at hroom hvn
  rw [hvn]
  simp only
  omega

theorem full_of_rejected (hcoh : s.Coherent cfg) {q vn color : ℕ} {item : Option P} {now : Ticks}
    (hpush : s.pushFront cfg q vn color item now = some (s', false)) {v : Fin k}
    (hv : (v : ℕ) = vn) :
    ((s.getLogicalQueue cfg q (cfg.mapToWorker q) now).2.vnQueues v).capacity ≤
      ((s.getLogicalQueue cfg q (cfg.mapToWorker q) now).2.vnQueues v).size := by
  obtain ⟨-, p, hport, hinfo⟩ := getLogicalQueue_advances hcoh q now
  rw [pushFront_eq (vnIndex_eq_some.mpr hv) hport hinfo] at hpush
  simp only [Option.some.injEq, Prod.mk.injEq, Bool.not_eq_false'] at hpush
  rw [← hinfo]
  simpa [Port.full] using hpush.2

/-- A rejected push changes the credit of one VN and, if the queue was not yet
registered, registers it. -/
theorem eq_of_rejected (hcoh : s.Coherent cfg) {q vn color : ℕ} {item : Option P}
    {now : Ticks} (hpush : s.pushFront cfg q vn color item now = some (s', false)) {v : Fin k}
    (hv : (v : ℕ) = vn) :
    s' = (s.getLogicalQueue cfg q (cfg.mapToWorker q) now).1.setQueue q
      ((s.getLogicalQueue cfg q (cfg.mapToWorker q) now).2.modifyVn v fun sq =>
        { sq with greenCredit :=
            sq.greenCredit + if color = 0 then (ingressSize item : ℤ) else 0 }) := by
  obtain ⟨-, p, hport, hinfo⟩ := getLogicalQueue_advances hcoh q now
  rw [pushFront_eq (vnIndex_eq_some.mpr hv) hport hinfo] at hpush
  simp only [Option.some.injEq, Prod.mk.injEq, Bool.not_eq_false'] at hpush
  obtain ⟨rfl, hfull⟩ := hpush
  rw [← hinfo]
  simp only [Port.push, hfull, if_true, add_zero]
  rw [← setQueue_eq_write hport]
  congr 1
  by_cases hcolor : color = 0
  · simp [LogicalQueueInfo.accrue, hcolor]
  · simp [LogicalQueueInfo.accrue, hcolor, LogicalQueueInfo.modifyVn]

/-- Delivery after the calls of `history`, and what a further push does. -/
structure InOrder (cfg : Config m k) (s : QueueingLogicVN P m k)
    (history : List (Call P m k)) : Prop where
  fifo : ∀ q v, history.filterMap (Call.accepted q v) =
    takenFrom v (history.filterMap (Call.dequeued q)) ++ (s.deque cfg q v).map QE.pair
  worker : ∀ call ∈ history, ∀ w now q v qe, call.op = .scan w now →
    call.result = .scanned (.output q v qe) → cfg.mapToWorker q = w
  accepted : ∀ q color item now s' lq (v : Fin k),
    s.pushFront cfg q v color item now = some (s', true) →
      s'.logicalQueuesInfo q = some lq →
        (lq.vnQueues v).size ≤ (lq.vnQueues v).capacity
  rejected : ∀ q color item now s' (v : Fin k),
    s.pushFront cfg q v color item now = some (s', false) →
      s' = (s.getLogicalQueue cfg q (cfg.mapToWorker q) now).1.setQueue q
        ((s.getLogicalQueue cfg q (cfg.mapToWorker q) now).2.modifyVn v fun sq =>
          { sq with greenCredit :=
              sq.greenCredit + if color = 0 then (ingressSize item : ℤ) else 0 })

/-- Delivery is in order, without loss and without duplication, in every run. -/
theorem in_order_delivery (cfg : Config m k) (capacity : ℕ) (ops : List (Op P m))
    (hops : ∀ op ∈ ops, op.VnBelow k) :
    ∃ s history, run cfg (initial capacity) ops = some (s, history) ∧
      InOrder cfg s history := by
  obtain ⟨s, history, hrun⟩ := run_isSome cfg capacity ops hops
  have hcoh := run_coherent hrun
  refine ⟨s, history, hrun, ?_⟩
  constructor
  · exact fifo_history hrun
  · exact outputs_mapped hrun
  · intro q color item now s' lq v hpush hlq
    exact size_le_of_accepted hcoh hpush hlq rfl
  · intro q color item now s' v hpush
    exact eq_of_rejected hcoh hpush rfl

theorem in_order_delivery_two_packets :
    ∃ s history, run Config.single (initial 4)
        [.pushFront 0 0 0 (some 100) 1, .pushFront 0 0 1 (some 200) 1, .scan 0 2] =
          some (s, history) ∧ InOrder Config.single s history :=
  in_order_delivery Config.single 4 _ (by simp [Op.VnBelow])

end QueueingLogicVN

end Cmcs
