import Cmcs.InOrderDelivery
import Cmcs.SimpleSwitch
import Mathlib.Tactic

/-!
# Runs of the switch

The egress buffers see a run of `QueueingLogicVN`, the marker a trace of
packets, and every buffer and thread conserves what passes through it in order.
-/

namespace Cmcs

open TransitionSystem

namespace SimpleSwitch

variable {k : ℕ} {weights : VnWeights k} {s s' : SimpleSwitch k} {action : Action k}
variable {actions : List (Action k)}

/-! ## The egress buffers -/

theorem call_step (hstep : Step weights s action s') :
    (action.call = none ∧ s'.egressBuffers = s.egressBuffers) ∨
      ∃ op call, action.call = some call ∧
        s.egressBuffers.step weights.config op = some (s'.egressBuffers, [call]) := by
  cases hstep with
  | enqueue now hbusy happly hforward hpush => exact Or.inr ⟨_, _, rfl, hpush⟩
  | egressPop w now hready hscan => exact Or.inr ⟨_, _, rfl, hscan⟩
  | control hsetter hset => exact Or.inr ⟨_, _, rfl, hset⟩
  | stopEgress w now hpush => exact Or.inr ⟨_, _, rfl, hpush⟩
  | _ => exact Or.inl ⟨rfl, rfl⟩

theorem run_history (hrun : Reaches weights actions s) :
    ∃ ops, QueueingLogicVN.run weights.config (.initial 64) ops =
      some (s.egressBuffers, actions.filterMap Action.call) := by
  induction hrun with
  | nil => exact ⟨[], rfl⟩
  | @snoc actions s s' action hrun hstep ih =>
      obtain ⟨ops, hops⟩ := ih
      rw [filterMap_concat]
      cases call_step hstep with
      | inl hquiet =>
          obtain ⟨hcall, hbuffers⟩ := hquiet
          rw [hcall, hbuffers]
          exact ⟨ops, by simpa using hops⟩
      | inr hcalled =>
          obtain ⟨op, call, hcall, hlast⟩ := hcalled
          rw [hcall]
          exact ⟨ops ++ [op], exec_concat_eq_some.mpr ⟨_, _, _, hops, hlast, rfl⟩⟩

/-- No call of the egress buffers with VN ids below `nb_vns` fails. -/
theorem exists_call (hrun : Reaches weights actions s) {op : Op Packet 4} (hop : op.VnBelow k) :
    ∃ egressBuffers call, s.egressBuffers.step weights.config op =
      some (egressBuffers, [call]) := by
  obtain ⟨ops, hops⟩ := run_history hrun
  have hcoh := QueueingLogicVN.run_coherent hops
  have hwf := QueueingLogicVN.run_wellFormed hops
  obtain ⟨egressBuffers, calls, hstep⟩ := QueueingLogicVN.step_isSome hcoh hwf hop
  obtain ⟨call, rfl, -⟩ := QueueingLogicVN.step_spec hcoh hwf hstep
  exact ⟨egressBuffers, call, hstep⟩

theorem vnIdOf_lt (hk : 0 < k) (phv : MyIngress.Marked) : vnIdOf k phv < k := by
  unfold vnIdOf
  split
  · exact hk
  · omega

/-- The ingress thread always finishes its packet: the clamp keeps the VN id in
range. -/
theorem ingress_progress (hrun : Reaches weights actions s) (hk : 0 < k) {packet : Packet}
    (hbusy : s.ingressThread = .busy packet) :
    ∃ action s' packet', Step weights s action s' ∧ action.ingressed = some packet' ∧
      packet'.headers = packet.headers ∧ s'.ingressThread = .ready ∧
        s'.inputBuffer = s.inputBuffer := by
  cases happly : MyIngress.apply s.registers packet.headers with
  | mk regs phv =>
      by_cases hdrop : phv.egressSpec = MyIngress.dropPort
      · exact ⟨_, _, _, Step.drop hbusy happly hdrop, rfl, rfl, rfl, rfl⟩
      · obtain ⟨egressBuffers, call, hpush⟩ := exists_call hrun (show
          (enqueue k phv.egressSpec.toNat { packet with phv := phv } 0).VnBelow k from
            vnIdOf_lt hk _)
        exact ⟨_, _, _, Step.enqueue 0 hbusy happly hdrop hpush, rfl, rfl, rfl, rfl⟩

/-- A ready egress thread can always scan its queues. -/
theorem egress_progress (hrun : Reaches weights actions s) {w : Fin 4}
    (hready : s.egressThread w = .ready) (now : Ticks) :
    ∃ call s', Step weights s (.egressPop w call) s' := by
  obtain ⟨egressBuffers, call, hscan⟩ :=
    exists_call hrun (show (Op.scan w now : Op Packet 4).VnBelow k from trivial)
  exact ⟨call, _, Step.egressPop w now hready hscan⟩

theorem step_pushFront {egressBuffers egressBuffers' : QueueingLogicVN Packet 4 k}
    {q vn color : ℕ} {item : Option Packet} {now : Ticks} {call : Call Packet 4 k}
    (hpush : egressBuffers.step weights.config (.pushFront q vn color item now) =
      some (egressBuffers', [call])) :
    ∃ v : Fin k, (v : ℕ) = vn ∧ ∃ accepted,
      egressBuffers.pushFront weights.config q vn color item now =
        some (egressBuffers', accepted) ∧
      call = ⟨.pushFront q vn color item now, .pushed accepted,
        egressBuffers.creation q now ++ [(q, .push v color item accepted)]⟩ := by
  obtain ⟨v, accepted, hv, haccepted, heq⟩ := QueueingLogicVN.step_pushFront hpush
  exact ⟨v, QueueingLogicVN.vnIndex_eq_some.mp hv, accepted, haccepted,
    List.singleton_inj.mp heq⟩

theorem step_scan {egressBuffers egressBuffers' : QueueingLogicVN Packet 4 k} {w : Fin 4}
    {now : Ticks} {call : Call Packet 4 k}
    (hscan : egressBuffers.step weights.config (.scan w now) =
      some (egressBuffers', [call])) :
    ∃ outcome log, call = ⟨.scan w now, .scanned outcome, log⟩ := by
  obtain ⟨outcome, log, -, heq⟩ := QueueingLogicVN.step_scan hscan
  exact ⟨outcome, log, List.singleton_inj.mp heq⟩

theorem step_setter {egressBuffers egressBuffers' : QueueingLogicVN Packet 4 k}
    {op : Op Packet 4} (hsetter : op.IsSetter) {call : Call Packet 4 k}
    (hset : egressBuffers.step weights.config op = some (egressBuffers', [call])) :
    ∃ log, call = ⟨op, .done, log⟩ := by
  cases op with
  | pushFront => exact hsetter.elim
  | scan => exact hsetter.elim
  | setVnCapacity q vn c now =>
      obtain ⟨v, -, -, heq⟩ := QueueingLogicVN.step_setVnCapacity hset
      exact ⟨_, List.singleton_inj.mp heq⟩
  | _ =>
      simp only [QueueingLogicVN.step, Option.some.injEq, Prod.mk.injEq, List.cons.injEq,
        and_true] at hset
      exact ⟨_, hset.2.symm⟩

/-! ## The marker -/

theorem marker_run (hrun : Reaches weights actions s) :
    s.registers = MyIngress.runRegs .zero
        ((actions.filterMap Action.ingressed).map Packet.headers) ∧
      MyIngress.markAll .zero ((actions.filterMap Action.ingressed).map Packet.headers) =
        (actions.filterMap Action.ingressed).map fun packet => (packet.headers, packet.phv) := by
  induction hrun with
  | nil => exact ⟨rfl, rfl⟩
  | @snoc actions s s' action hrun hstep ih =>
      obtain ⟨hregs, hmarks⟩ := ih
      have hnext : ∀ packet phv regs,
          MyIngress.apply s.registers packet = (regs, phv) →
          regs = MyIngress.runRegs .zero
            ((actions.filterMap Action.ingressed).map Packet.headers ++ [packet]) ∧
          MyIngress.markAll .zero
              ((actions.filterMap Action.ingressed).map Packet.headers ++ [packet]) =
            (actions.filterMap Action.ingressed).map
              (fun packet => (packet.headers, packet.phv)) ++ [(packet, phv)] := by
        intro packet phv regs happly
        rw [MyIngress.markAll_append, MyIngress.runRegs_append, hmarks, ← hregs]
        simp [MyIngress.runRegs, MyIngress.markAll, happly]
      rw [filterMap_concat]
      cases hstep with
      | drop hbusy happly hdrop => simpa [Action.ingressed] using hnext _ _ _ happly
      | enqueue now hbusy happly hforward hpush =>
          simpa [Action.ingressed] using hnext _ _ _ happly
      | _ => simpa [Action.ingressed] using ⟨hregs, hmarks⟩

theorem exists_run (weights : VnWeights k) (hk : 0 < k) (trace : List MyIngress.Packet) :
    ∃ actions s, Reaches weights actions s ∧
      (actions.filterMap Action.ingressed).map Packet.headers = trace ∧
        s.ingressThread = .ready ∧ s.inputBuffer = {} := by
  induction trace using List.reverseRecOn with
  | nil => exact ⟨[], {}, Run.nil, rfl, rfl, rfl⟩
  | append_singleton trace headers ih =>
      obtain ⟨actions, s, hrun, htrace, hready, hempty⟩ := ih
      have hreceived := hrun.snoc (Step.receive (b := { queueLo :=
        [some { packetId := s.packetId, headers }] }) headers (by rw [hempty]; rfl))
      have hpopped := hreceived.snoc (Step.ingressPop hready rfl)
      obtain ⟨action, s', packet, hstep, hpacket, hheaders, hready', hbuffer⟩ :=
        ingress_progress hpopped hk rfl
      refine ⟨_, s', hpopped.snoc hstep, ?_, hready', hbuffer⟩
      rw [filterMap_concat, filterMap_concat, filterMap_concat, hpacket, List.map_append,
        List.map_append, List.map_append, htrace]
      simp [Action.ingressed, hheaders]

/-! ## Conservation in order -/

def Thread.held : Thread → List Packet
  | .busy packet => [packet]
  | _ => []

def contents (items : List (Option Packet)) : List Packet := items.filterMap id

def ids (packets : List Packet) : List ℕ := packets.map Packet.packetId

@[simp] theorem held_ready : Thread.ready.held = [] := rfl

@[simp] theorem held_busy (packet : Packet) : (Thread.busy packet).held = [packet] := rfl

@[simp] theorem held_after (item : Option Packet) : (Thread.after item).held = item.toList := by
  cases item <;> rfl

@[simp] theorem contents_append (first second : List (Option Packet)) :
    contents (first ++ second) = contents first ++ contents second :=
  List.filterMap_append

@[simp] theorem contents_cons (item : Option Packet) (items : List (Option Packet)) :
    contents (item :: items) = item.toList ++ contents items := by
  cases item <;> rfl

@[simp] theorem contents_nil : contents [] = [] := rfl

@[simp] theorem ids_append (first second : List Packet) :
    ids (first ++ second) = ids first ++ ids second :=
  List.map_append

@[simp] theorem ids_nil : ids [] = [] := rfl

@[simp] theorem ids_cons (packet : Packet) (packets : List Packet) :
    ids (packet :: packets) = packet.packetId :: ids packets := rfl

/-- What has entered the input buffer has been ingressed, or is held by the
ingress thread, or waits; and only sentinels have priority. -/
theorem ingress_run (hrun : Reaches weights actions s) :
    ids (actions.filterMap Action.received) =
        ids (actions.filterMap Action.ingressed) ++
          (ids s.ingressThread.held ++ ids (contents s.inputBuffer.queueLo)) ∧
      contents s.inputBuffer.queueHi = [] := by
  induction hrun with
  | nil => exact ⟨rfl, rfl⟩
  | @snoc actions s s' action hrun hstep ih =>
      obtain ⟨hids, hhi⟩ := ih
      rw [filterMap_concat, filterMap_concat, ids_append, ids_append, hids]
      cases hstep with
      | receive headers hpush =>
          simp only [InputBuffer.pushFront, Option.ite_none_left_eq_some, Option.some.injEq,
            Prod.mk.injEq, and_true] at hpush
          obtain ⟨-, rfl⟩ := hpush
          simp [Action.received, Action.ingressed, hhi]
      | @ingressPop item b hready hpop =>
          unfold InputBuffer.popBack at hpop
          split at hpop
          next item' queueHi queueLo hqueue =>
            simp only [Option.some.injEq, Prod.mk.injEq] at hpop
            obtain ⟨rfl, rfl⟩ := hpop
            rw [hqueue, contents_cons, List.append_eq_nil_iff] at hhi
            simp [Action.received, Action.ingressed, hready, hhi.1, hhi.2]
          next item' queueLo hqueue hlo =>
            simp only [Option.some.injEq, Prod.mk.injEq] at hpop
            obtain ⟨rfl, rfl⟩ := hpop
            simp [Action.received, Action.ingressed, hready, hhi, hlo]
          next => simp at hpop
      | drop hbusy happly hdrop =>
          simp [Action.received, Action.ingressed, hbusy, hhi]
      | enqueue now hbusy happly hforward hpush =>
          simp [Action.received, Action.ingressed, hbusy, hhi]
      | stopIngress hpush =>
          simp only [InputBuffer.pushFront, Option.ite_none_left_eq_some, Option.some.injEq,
            Prod.mk.injEq, and_true] at hpush
          obtain ⟨-, rfl⟩ := hpush
          simp [Action.received, Action.ingressed, hhi]
      | _ => simpa [Action.received, Action.ingressed] using hhi

theorem received_run (hrun : Reaches weights actions s) :
    ids (actions.filterMap Action.received) = List.range s.packetId := by
  induction hrun with
  | nil => rfl
  | @snoc actions s s' action hrun hstep ih =>
      rw [filterMap_concat, ids_append, ih]
      cases hstep with
      | receive headers hpush => simp [Action.received, List.range_succ]
      | _ => simp [Action.received]

theorem call_op (hrun : Reaches weights actions s) {op : Op Packet 4}
    {egressBuffers : QueueingLogicVN Packet 4 k} {call : Call Packet 4 k}
    (hstep : s.egressBuffers.step weights.config op = some (egressBuffers, [call])) :
    call.op = op := by
  obtain ⟨ops, hops⟩ := run_history hrun
  obtain ⟨call', heq, hop, -⟩ := QueueingLogicVN.step_spec (QueueingLogicVN.run_coherent hops)
    (QueueingLogicVN.run_wellFormed hops) hstep
  rw [List.singleton_inj.mp heq, hop]

/-! ## One packet after the other -/

theorem scanned_of_output (hstep : Step weights s action s') {call : Call Packet 4 k}
    (hcall : action.call = some call) {outcome : ScanOutcome Packet k}
    (hresult : call.result = .scanned outcome) : ∃ w now, call.op = .scan w now := by
  cases hstep with
  | egressPop w now hready hscan =>
      obtain ⟨outcome', log, rfl⟩ := step_scan hscan
      obtain rfl := Option.some.inj hcall
      exact ⟨w, now, rfl⟩
  | enqueue now hbusy happly hforward hpush =>
      obtain ⟨v, hv, accepted, -, rfl⟩ := step_pushFront hpush
      obtain rfl := Option.some.inj hcall
      simp at hresult
  | stopEgress w now hpush =>
      obtain ⟨v, hv, accepted, -, rfl⟩ := step_pushFront hpush
      obtain rfl := Option.some.inj hcall
      simp at hresult
  | control hsetter hset =>
      obtain ⟨log, rfl⟩ := step_setter hsetter hset
      obtain rfl := Option.some.inj hcall
      simp at hresult
  | _ => simp [Action.call] at hcall

theorem stopEgress_of_accepted (hstep : Step weights s action s') {call : Call Packet 4 k}
    (hcall : action.call = some call) {q : ℕ} {v : Fin k} {color : ℕ}
    (haccepted : call.accepted q v = some (none, color)) : action = .stopEgress call := by
  cases hstep with
  | stopEgress w now hpush =>
      obtain rfl := Option.some.inj hcall
      rfl
  | enqueue now hbusy happly hforward hpush =>
      obtain ⟨i, hi, accepted, -, rfl⟩ := step_pushFront hpush
      obtain rfl := Option.some.inj hcall
      cases accepted <;> simp [Call.accepted] at haccepted
  | egressPop w now hready hscan =>
      obtain ⟨outcome, log, rfl⟩ := step_scan hscan
      obtain rfl := Option.some.inj hcall
      simp [Call.accepted] at haccepted
  | @control op _ _ hsetter hset =>
      obtain ⟨log, rfl⟩ := step_setter hsetter hset
      obtain rfl := Option.some.inj hcall
      simp [Call.accepted] at haccepted
  | _ => simp [Action.call] at hcall

theorem output_of_done {result : Result Packet k} (hdone : Thread.afterScan result = .done) :
    ∃ q v qe, result = .scanned (.output q v qe) ∧ qe.e = none := by
  unfold Thread.afterScan at hdone
  split at hdone
  next q v qe =>
    refine ⟨q, v, qe, rfl, ?_⟩
    cases hitem : qe.e with
    | none => rfl
    | some packet => simp [hitem, Thread.after] at hdone
  next => simp at hdone

/-- A scan outputs the sentinel of an egress thread only after the destructor has sent it. -/
theorem stopped_of_output (hrun : Reaches weights actions s) {call : Call Packet 4 k}
    (hcall : call ∈ actions.filterMap Action.call) {q : ℕ} {v : Fin k} {qe : QE Packet}
    (hresult : call.result = .scanned (.output q v qe)) (hnone : qe.e = none) :
    ∃ stop, Action.stopEgress stop ∈ actions := by
  obtain ⟨ops, hops⟩ := run_history hrun
  obtain ⟨action, haction, hsome⟩ := List.mem_filterMap.mp hcall
  obtain ⟨s₁, s₂, hstep⟩ := hrun.exists_step_of_mem haction
  obtain ⟨w, now, hop⟩ := scanned_of_output hstep hsome hresult
  have hdequeued : (now, v, qe) ∈ (actions.filterMap Action.call).filterMap (Call.dequeued q) :=
    List.mem_filterMap.mpr ⟨call, hcall, by simp [Call.dequeued, hop, hresult]⟩
  have htaken : qe.pair ∈
      takenFrom v ((actions.filterMap Action.call).filterMap (Call.dequeued q)) :=
    List.mem_filterMap.mpr ⟨_, hdequeued, if_pos rfl⟩
  have haccepted := List.mem_append_left
    ((s.egressBuffers.deque weights.config q v).map QE.pair) htaken
  rw [← QueueingLogicVN.fifo_history hops] at haccepted
  obtain ⟨stop, hstop, hpair⟩ := List.mem_filterMap.mp haccepted
  obtain ⟨action', haction', hsome'⟩ := List.mem_filterMap.mp hstop
  obtain ⟨s₃, s₄, hstep'⟩ := hrun.exists_step_of_mem haction'
  rw [QE.pair, hnone] at hpair
  exact ⟨stop, stopEgress_of_accepted hstep' hsome' hpair ▸ haction'⟩

theorem egress_isSome (packet : Packet) : ∃ packet', egress packet = some packet' := by
  simp [egress]

/-- Only the egress buffers hold packets, and every thread waits for one. -/
structure Idle (s : SimpleSwitch k) : Prop where
  inputBuffer : s.inputBuffer = {}
  ingressThread : s.ingressThread = .ready
  egressThread : ∀ w, s.egressThread w = .ready
  outputBuffer : s.outputBuffer = []
  transmitThread : s.transmitThread = .ready

/-- The ingress thread has taken the packets of `trace`, and the egress buffers have been
called with `ops`. -/
structure Forwarded (weights : VnWeights k) (trace : List MyIngress.Packet)
    (ops : List (Op Packet 4)) (actions : List (Action k)) (s : SimpleSwitch k) : Prop where
  run : Reaches weights actions s
  idle : s.Idle
  trace : (actions.filterMap Action.ingressed).map Packet.headers = trace
  calls : (actions.filterMap Action.call).map Call.op = ops
  live : ∀ call, Action.stopEgress call ∉ actions

section Forwarded

variable {trace : List MyIngress.Packet} {ops : List (Op Packet 4)}

theorem Forwarded.nil (weights : VnWeights k) : Forwarded weights [] [] [] {} where
  run := Run.nil
  idle := ⟨rfl, rfl, fun _ => rfl, rfl, rfl⟩
  trace := rfl
  calls := rfl
  live := by simp

theorem Forwarded.packetId (hforwarded : Forwarded weights trace ops actions s) :
    s.packetId = trace.length := by
  have hids := (ingress_run hforwarded.run).1
  rw [received_run hforwarded.run, hforwarded.idle.inputBuffer,
    hforwarded.idle.ingressThread] at hids
  have hlength := congrArg List.length hids
  rw [← hforwarded.trace]
  simpa [ids] using hlength

/-- The control plane calls a setter. -/
theorem Forwarded.control (hforwarded : Forwarded weights trace ops actions s)
    {op : Op Packet 4} (hsetter : op.IsSetter) (hop : op.VnBelow k) :
    ∃ actions' s', Forwarded weights trace (ops ++ [op]) actions' s' := by
  obtain ⟨egressBuffers, call, hset⟩ := exists_call hforwarded.run hop
  refine ⟨_, _, hforwarded.run.snoc (Step.control hsetter hset),
    ⟨hforwarded.idle.inputBuffer, hforwarded.idle.ingressThread, hforwarded.idle.egressThread,
      hforwarded.idle.outputBuffer, hforwarded.idle.transmitThread⟩, ?_, ?_, ?_⟩
  · rw [filterMap_concat, ← hforwarded.trace]
    simp [Action.ingressed]
  · rw [filterMap_concat, ← hforwarded.calls, ← call_op hforwarded.run hset]
    simp [Action.call]
  · simpa using hforwarded.live

/-- One more packet is received, marked and queued. -/
theorem Forwarded.enqueue (hforwarded : Forwarded weights trace ops actions s) (hk : 0 < k)
    (headers : MyIngress.Packet) {phv : MyIngress.Marked}
    (hphv : (MyIngress.apply (MyIngress.runRegs .zero trace) headers).2 = phv)
    (hforward : phv.egressSpec ≠ MyIngress.dropPort) (now : Ticks) :
    ∃ actions' s', Forwarded weights (trace ++ [headers])
      (ops ++ [SimpleSwitch.enqueue k phv.egressSpec.toNat
        { packetId := trace.length, headers, phv } now]) actions' s' := by
  have hreceived := hforwarded.run.snoc (Step.receive (b := { queueLo :=
    [some { packetId := s.packetId, headers }] }) headers
      (by rw [hforwarded.idle.inputBuffer]; rfl))
  have hpopped := hreceived.snoc (Step.ingressPop hforwarded.idle.ingressThread rfl)
  have happly : MyIngress.apply s.registers headers =
      ((MyIngress.apply s.registers headers).1, phv) := by
    rw [← hphv, ← hforwarded.trace, ← (marker_run hforwarded.run).1]
  obtain ⟨egressBuffers, call, hpush⟩ := exists_call hpopped (show
    (SimpleSwitch.enqueue k phv.egressSpec.toNat
      { packetId := s.packetId, headers, phv } now).VnBelow k from vnIdOf_lt hk _)
  refine ⟨_, _, hpopped.snoc (Step.enqueue now rfl happly hforward hpush),
    ⟨rfl, rfl, hforwarded.idle.egressThread, hforwarded.idle.outputBuffer,
      hforwarded.idle.transmitThread⟩, ?_, ?_, ?_⟩
  · rw [filterMap_concat, filterMap_concat, filterMap_concat, ← hforwarded.trace]
    simp [Action.ingressed]
  · rw [filterMap_concat, filterMap_concat, filterMap_concat, ← hforwarded.calls,
      ← hforwarded.packetId, ← call_op hpopped hpush]
    simp [Action.call]
  · simpa using hforwarded.live

/-- What an egress thread holds is transmitted. -/
theorem exists_sent (hrun : Reaches weights actions s) {w : Fin 4} {packet : Packet}
    (hbusy : s.egressThread w = .busy packet)
    (hidle : Idle { s with egressThread := Function.update s.egressThread w .ready }) :
    ∃ actions' s', Reaches weights actions' s' ∧ s'.Idle ∧
      actions'.filterMap Action.ingressed = actions.filterMap Action.ingressed ∧
      actions'.filterMap Action.call = actions.filterMap Action.call ∧
      ∀ call, Action.stopEgress call ∈ actions' → Action.stopEgress call ∈ actions := by
  have houtput : s.outputBuffer = [] := hidle.outputBuffer
  have hroom : s.outputBuffer.length < outputCapacity := by
    rw [houtput]
    decide
  obtain ⟨packet', hegress⟩ := egress_isSome packet
  have hpushed := hrun.snoc (Step.egressPush w packet hbusy hegress hroom)
  have hsent := (hpushed.snoc (Step.transmitPop hidle.transmitThread
    (congrArg (· ++ _) houtput))).snoc (Step.transmit rfl)
  refine ⟨_, _, hsent, ⟨hidle.inputBuffer, hidle.ingressThread, hidle.egressThread, rfl, rfl⟩,
    ?_, ?_, ?_⟩
  · simp [Action.ingressed]
  · simp [Action.call]
  · simp

/-- An egress thread scans its queues and sends what it finds. -/
theorem Forwarded.scan (hforwarded : Forwarded weights trace ops actions s) (w : Fin 4)
    (now : Ticks) : ∃ actions' s', Forwarded weights trace (ops ++ [.scan w now]) actions' s' := by
  obtain ⟨egressBuffers, call, hscan⟩ := exists_call hforwarded.run
    (show (Op.scan w now : Op Packet 4).VnBelow k from trivial)
  have hpopped := hforwarded.run.snoc
    (Step.egressPop w now (hforwarded.idle.egressThread w) hscan)
  have htrace : ((actions ++ [Action.egressPop w call]).filterMap Action.ingressed).map
      Packet.headers = trace := by
    rw [filterMap_concat, ← hforwarded.trace]
    simp [Action.ingressed]
  have hcalls : ((actions ++ [Action.egressPop w call]).filterMap Action.call).map Call.op =
      ops ++ [.scan w now] := by
    rw [filterMap_concat, ← hforwarded.calls, ← call_op hforwarded.run hscan]
    simp [Action.call]
  have hlive : ∀ stop, Action.stopEgress stop ∉ actions ++ [Action.egressPop w call] := by
    simpa using hforwarded.live
  have hready : ∀ u, Function.update s.egressThread w .ready u = .ready := fun u => by
    rw [Function.update_apply, hforwarded.idle.egressThread, ite_self]
  cases hafter : Thread.afterScan call.result with
  | ready =>
      rw [hafter] at hpopped
      exact ⟨_, _, hpopped, ⟨hforwarded.idle.inputBuffer, hforwarded.idle.ingressThread, hready,
        hforwarded.idle.outputBuffer, hforwarded.idle.transmitThread⟩, htrace, hcalls, hlive⟩
  | done =>
      obtain ⟨q, v, qe, hresult, hnone⟩ := output_of_done hafter
      obtain ⟨stop, hstop⟩ := stopped_of_output hpopped
        (List.mem_filterMap.mpr ⟨.egressPop w call, by simp, rfl⟩) hresult hnone
      exact absurd hstop (hlive stop)
  | busy packet =>
      rw [hafter] at hpopped
      have hready' : ∀ u, Function.update (Function.update s.egressThread w (.busy packet)) w
          .ready u = .ready := fun u => by rw [Function.update_idem, hready]
      obtain ⟨actions', s', hsent, hidle, hingressed, hcall, hstop⟩ :=
        exists_sent hpopped (Function.update_self w _ _)
          ⟨hforwarded.idle.inputBuffer, hforwarded.idle.ingressThread, hready',
            hforwarded.idle.outputBuffer, hforwarded.idle.transmitThread⟩
      exact ⟨actions', s', hsent, hidle, by rw [hingressed, htrace], by rw [hcall, hcalls],
        fun stop hmem => hlive stop (hstop stop hmem)⟩

end Forwarded

end SimpleSwitch

end Cmcs
