import Cmcs.SwitchRun
import Mathlib.Tactic

/-!
# In-order delivery through the threads

For every port and VN the packets travel through one chain of FIFOs: the input
buffer, the ingress thread, one deque of the egress buffers, the one egress
thread which is responsible for the port, the output buffer and the transmit
thread.  The other egress threads and the other deques never touch them.
-/

namespace Cmcs

open TransitionSystem

namespace SimpleSwitch

variable {k : ℕ} {weights : VnWeights k} {s s' : SimpleSwitch k} {action : Action k}
variable {actions : List (Action k)} {q : ℕ} {v : Fin k}

def packets (pairs : List (Option Packet × ℕ)) : List Packet := pairs.filterMap Prod.fst

@[simp] theorem packets_append (first second : List (Option Packet × ℕ)) :
    packets (first ++ second) = packets first ++ packets second :=
  List.filterMap_append

theorem queuedAt_iff {packet : Packet} (hqueued : packet.queuedAt q v = true) (q' : ℕ)
    (v' : Fin k) : packet.queuedAt q' v' = true ↔ q = q' ∧ v = v' := by
  simp only [Packet.queuedAt, decide_eq_true_eq] at hqueued ⊢
  rw [hqueued.1, hqueued.2, Fin.ext_iff]

/-! ## Into the deques -/

def Action.accepted (q : ℕ) (v : Fin k) (action : Action k) : Option Packet :=
  (action.placed q v).bind fun placed => if placed.2 then some placed.1 else none

theorem accepted_step (hstep : Step weights s action s') (q : ℕ) (v : Fin k) :
    (action.call.bind fun call => (call.accepted q v).bind Prod.fst) =
      action.accepted q v := by
  cases hstep with
  | enqueue now hbusy happly hforward hpush =>
      obtain ⟨i, hi, accepted, -, rfl⟩ := step_pushFront hpush
      cases accepted with
      | false =>
          simp only [Action.call, Call.accepted, Action.accepted, Action.placed,
            Option.bind_some]
          split <;> rfl
      | true =>
          simp only [Action.call, Call.accepted, Action.accepted, Action.placed,
            Packet.queuedAt, Option.bind_some, decide_eq_true_eq]
          split <;> rfl
  | stopEgress w now hpush =>
      obtain ⟨i, hi, accepted, -, rfl⟩ := step_pushFront hpush
      cases accepted with
      | false => rfl
      | true =>
          simp only [Action.call, Call.accepted, Option.bind_some]
          split <;> rfl
  | egressPop w now hready hscan =>
      obtain ⟨outcome, log, rfl⟩ := step_scan hscan
      rfl
  | @control op _ _ hsetter hset =>
      obtain ⟨log, rfl⟩ := step_setter hsetter hset
      cases op with
      | pushFront => exact hsetter.elim
      | _ => rfl
  | _ => rfl

theorem accepted_run (hrun : Reaches weights actions s) (q : ℕ) (v : Fin k) :
    packets ((actions.filterMap Action.call).filterMap (Call.accepted q v)) =
      actions.filterMap (Action.accepted q v) := by
  rw [packets, List.filterMap_filterMap, List.filterMap_filterMap]
  apply List.filterMap_congr
  intro action haction
  obtain ⟨s, s', hstep⟩ := hrun.exists_step_of_mem haction
  exact accepted_step hstep q v

theorem queuedAt_of_placed {placed : Packet × Bool}
    (hplaced : action.placed q v = some placed) : placed.1.queuedAt q v = true := by
  unfold Action.placed at hplaced
  split at hplaced
  next packet call =>
    split at hplaced
    next accepted =>
      rw [Option.ite_none_right_eq_some] at hplaced
      rw [← Option.some.inj hplaced.2]
      exact hplaced.1
    next => simp at hplaced
  next => simp at hplaced

theorem placed_of_accepted {packet : Packet} (haccepted : action.accepted q v = some packet) :
    action.placed q v = some (packet, true) := by
  obtain ⟨⟨packet', flag⟩, hplaced, hflag⟩ := Option.bind_eq_some_iff.mp haccepted
  cases flag with
  | false => simp at hflag
  | true =>
      obtain rfl : packet' = packet := by simpa using hflag
      exact hplaced

theorem ingressed_of_placed {placed : Packet × Bool}
    (hplaced : action.placed q v = some placed) : action.ingressed = some placed.1 := by
  unfold Action.placed at hplaced
  split at hplaced
  next packet call =>
    split at hplaced
    next accepted =>
      rw [Option.ite_none_right_eq_some] at hplaced
      rw [← Option.some.inj hplaced.2]
      rfl
    next => simp at hplaced
  next => simp at hplaced

theorem deque_run (hrun : Reaches weights actions s) (q : ℕ) (v : Fin k) :
    actions.filterMap (Action.accepted q v) =
      packets (takenFrom v ((actions.filterMap Action.call).filterMap (Call.dequeued q))) ++
        packets ((s.egressBuffers.deque weights.config q v).map QE.pair) := by
  obtain ⟨ops, hops⟩ := run_history hrun
  rw [← accepted_run hrun, QueueingLogicVN.fifo_history hops, packets_append]

/-! ## Out of the deques -/

def taken (q : ℕ) (v : Fin k) (actions : List (Action k)) : List Packet :=
  packets (takenFrom v ((actions.filterMap Action.call).filterMap (Call.dequeued q)))

/-- What has left the deques of port `q`, the oldest packet first: transmitted, or
on its way through the last two threads and the output buffer. -/
def behind (q : ℕ) (actions : List (Action k)) (s : SimpleSwitch k) : List Packet :=
  actions.filterMap Action.transmitted ++ (s.transmitThread.held ++
    (contents s.outputBuffer ++ (s.egressThread (egressThreadMapper q)).held))

theorem taken_concat (q : ℕ) (v : Fin k) (actions : List (Action k)) (action : Action k) :
    taken q v (actions ++ [action]) =
      taken q v actions ++ packets (takenFrom v (action.call.bind (Call.dequeued q)).toList) := by
  unfold taken
  rw [filterMap_concat, List.filterMap_append, takenFrom_append, packets_append]
  cases hcall : action.call with
  | none => rfl
  | some call =>
      cases hdequeued : call.dequeued q with
      | none => simp [hdequeued]
      | some d => simp [hdequeued]

theorem taken_step (hstep : Step weights s action s') (hpop : ∀ w call, action ≠ .egressPop w call)
    (q : ℕ) (v : Fin k) : taken q v (actions ++ [action]) = taken q v actions := by
  have hnone : action.call.bind (Call.dequeued q) = none := by
    cases hstep with
    | enqueue now hbusy happly hforward hpush =>
        obtain ⟨i, hi, accepted, -, rfl⟩ := step_pushFront hpush
        rfl
    | stopEgress w now hpush =>
        obtain ⟨i, hi, accepted, -, rfl⟩ := step_pushFront hpush
        rfl
    | egressPop => exact absurd rfl (hpop _ _)
    | @control op _ _ hsetter hset =>
        obtain ⟨log, rfl⟩ := step_setter hsetter hset
        cases op with
        | scan => exact hsetter.elim
        | _ => rfl
    | _ => rfl
  rw [taken_concat, hnone]
  simp [takenFrom, packets]

theorem taken_scan (q : ℕ) (v : Fin k) (actions : List (Action k)) (w : Fin 4) (now : Ticks)
    (log : Log Packet k) (qid : ℕ) (i : Fin k) (qe : QE Packet) :
    taken q v (actions ++ [.egressPop w
        ⟨.scan w now, .scanned (.output qid i qe), log⟩]) =
      taken q v actions ++ if qid = q ∧ i = v then qe.e.toList else [] := by
  rw [taken_concat]
  congr 1
  by_cases hq : qid = q
  · by_cases hi : i = v
    · cases he : qe.e <;>
        simp [Action.call, Call.dequeued, takenFrom, packets, QE.pair, hq, hi, he]
    · simp [Action.call, Call.dequeued, takenFrom, packets, hq, hi]
  · simp [Action.call, Call.dequeued, takenFrom, packets, hq]

/-- A packet which a scan outputs was queued where the scan found it, and at the
egress thread which is responsible for its port. -/
theorem queuedAt_of_output {w : Fin 4} {now : Ticks} {log : Log Packet k} {i : Fin k}
    {qe : QE Packet} {packet : Packet}
    (hrun : Reaches weights (actions ++ [.egressPop w
      ⟨.scan w now, .scanned (.output q i qe), log⟩]) s)
    (hpacket : qe.e = some packet) :
    packet.queuedAt q i = true ∧ egressThreadMapper q = w := by
  obtain ⟨ops, hops⟩ := run_history hrun
  constructor
  · have hmem : packet ∈ taken q i (actions ++ [.egressPop w
        ⟨.scan w now, .scanned (.output q i qe), log⟩]) := by
      simp [taken_scan, hpacket]
    have haccepted := List.mem_append_left
      (packets ((s.egressBuffers.deque weights.config q i).map QE.pair)) hmem
    rw [taken, ← deque_run hrun] at haccepted
    obtain ⟨action, -, haction⟩ := List.mem_filterMap.mp haccepted
    exact queuedAt_of_placed (placed_of_accepted haction)
  · have hmem : (⟨.scan w now, .scanned (.output q i qe), log⟩ : Call Packet 4 k) ∈
        (actions ++ [Action.egressPop w
          ⟨.scan w now, .scanned (.output q i qe), log⟩]).filterMap Action.call := by
      rw [filterMap_concat]
      simp [Action.call]
    exact QueueingLogicVN.outputs_mapped hops _ hmem w now q i qe rfl rfl

theorem egress_eq {packet packet' : Packet} (hegress : egress packet = some packet') :
    packet'.packetId = packet.packetId ∧ packet'.egressPort = packet.egressPort ∧
      packet'.phv.vnId = packet.phv.vnId := by
  unfold egress at hegress
  rw [Option.ite_none_left_eq_some] at hegress
  rw [← Option.some.inj hegress.2]
  exact ⟨rfl, rfl, rfl⟩

theorem held_update (threads : Fin 4 → Thread) (w u : Fin 4) (t : Thread) :
    (Function.update threads w t u).held = if u = w then t.held else (threads u).held := by
  rw [Function.update_apply]
  split <;> rfl

theorem worker_run (hrun : Reaches weights actions s) :
    ∀ w packet, packet ∈ (s.egressThread w).held →
      egressThreadMapper packet.egressPort = w := by
  induction hrun with
  | nil =>
      intro w packet hheld
      simp at hheld
  | @snoc actions s s' action hrun hstep ih =>
      have hrun' : Reaches weights (actions ++ [action]) s' := Run.snoc hrun hstep
      intro u packet hheld
      cases hstep with
      | egressPop w now hready hscan =>
          obtain ⟨outcome, log, rfl⟩ := step_scan hscan
          rw [held_update] at hheld
          split at hheld
          next hu =>
            cases outcome with
            | output q i qe =>
                rw [Thread.afterScan, held_after, Option.mem_toList] at hheld
                obtain ⟨hqueued, hmapped⟩ := queuedAt_of_output hrun' hheld
                simp only [Packet.queuedAt, decide_eq_true_eq] at hqueued
                rw [hqueued.1, hmapped, hu]
            | wait => simp [Thread.afterScan] at hheld
            | waitUntil => simp [Thread.afterScan] at hheld
          next => exact ih u packet hheld
      | egressPush w pushed hbusy hegress hroom =>
          rw [held_update] at hheld
          split at hheld
          next => simp at hheld
          next => exact ih u packet hheld
      | _ => exact ih u packet hheld

theorem held_after_output {threads : Fin 4 → Thread} {w : Fin 4}
    (hready : threads w = .ready) {item : Option Packet} {qid : ℕ} {i : Fin k}
    (hitem : ∀ packet, item = some packet →
      packet.queuedAt qid i = true ∧ egressThreadMapper qid = w) (q : ℕ) (v : Fin k) :
    (Function.update threads w (.after item) (egressThreadMapper q)).held.filter
        (Packet.queuedAt q v) =
      (threads (egressThreadMapper q)).held.filter (Packet.queuedAt q v) ++
        if qid = q ∧ i = v then item.toList else [] := by
  rw [held_update, held_after]
  cases item with
  | none =>
      by_cases hw : egressThreadMapper q = w
      · simp [hw, hready]
      · simp [hw]
  | some packet =>
      obtain ⟨hqueued, hmapped⟩ := hitem packet rfl
      by_cases hq : qid = q ∧ i = v
      · obtain ⟨rfl, rfl⟩ := hq
        simp [hmapped, hready, hqueued]
      · have hother : packet.queuedAt q v = false := by
          rw [← Bool.not_eq_true, queuedAt_iff hqueued]
          exact hq
        by_cases hw : egressThreadMapper q = w
        · simp [hw, hq, hready, hother]
        · simp [hw, hq]

theorem held_after_push {threads : Fin 4 → Thread} {w : Fin 4} {packet packet' : Packet}
    (hbusy : threads w = .busy packet) (hegress : egress packet = some packet')
    (hworker : egressThreadMapper packet.egressPort = w) (q : ℕ) (v : Fin k) :
    ids ([packet'].filter (Packet.queuedAt q v)) ++
        ids ((Function.update threads w .ready (egressThreadMapper q)).held.filter
          (Packet.queuedAt q v)) =
      ids ((threads (egressThreadMapper q)).held.filter (Packet.queuedAt q v)) := by
  obtain ⟨hid, hport, hvn⟩ := egress_eq hegress
  have hsame : packet'.queuedAt q v = packet.queuedAt q v := by
    rw [Bool.eq_iff_iff, Packet.queuedAt, Packet.queuedAt, decide_eq_true_eq,
      decide_eq_true_eq, vnIdOf, vnIdOf, hport, hvn]
  rw [held_update]
  by_cases hw : egressThreadMapper q = w
  · cases hqueued : packet.queuedAt q v with
    | false => simp [hw, hbusy, hsame, hqueued]
    | true => simp [hw, hbusy, hsame, hqueued, hid]
  · have hother : packet.queuedAt q v = false := by
      rw [← Bool.not_eq_true, Packet.queuedAt, decide_eq_true_eq]
      rintro ⟨rfl, -⟩
      exact hw hworker
    simp [hw, hsame, hother]

theorem egress_run (hrun : Reaches weights actions s) (q : ℕ) (v : Fin k) :
    ids (taken q v actions) = ids ((behind q actions s).filter (Packet.queuedAt q v)) := by
  induction hrun with
  | nil => rfl
  | @snoc actions s s' action hrun hstep ih =>
      have hrun' : Reaches weights (actions ++ [action]) s' := Run.snoc hrun hstep
      have hquiet : (∀ w call, action ≠ .egressPop w call) →
          taken q v (actions ++ [action]) = taken q v actions :=
        fun hpop => taken_step hstep hpop q v
      unfold behind at ih ⊢
      rw [filterMap_concat]
      cases hstep with
      | egressPop w now hready hscan =>
          obtain ⟨outcome, log, rfl⟩ := step_scan hscan
          have hwaited : Function.update s.egressThread w .ready = s.egressThread := by
            rw [← hready, Function.update_eq_self]
          cases outcome with
          | output qid i qe =>
              have hheld := held_after_output hready
                (fun packet he => queuedAt_of_output hrun' he) q v
              rw [taken_scan, ids_append, ih]
              simp only [Thread.afterScan, List.filter_append, ids_append, hheld]
              simp [Action.transmitted]
          | wait =>
              rw [taken_concat]
              simpa [Thread.afterScan, hwaited, Action.call, Call.dequeued, takenFrom,
                packets, Action.transmitted] using ih
          | waitUntil =>
              rw [taken_concat]
              simpa [Thread.afterScan, hwaited, Action.call, Call.dequeued, takenFrom,
                packets, Action.transmitted] using ih
      | egressPush w packet hbusy hegress hroom =>
          have hworker := worker_run hrun w packet (by simp [hbusy])
          have hheld := held_after_push hbusy hegress hworker q v
          rw [hquiet (by simp), ih]
          simp only [contents_append, contents_cons, contents_nil, List.filter_append,
            ids_append, ← hheld]
          simp [Action.transmitted]
      | transmitPop hready hpop =>
          rw [hquiet (by simp), ih]
          simp [hready, hpop, Action.transmitted]
      | transmit hbusy =>
          rw [hquiet (by simp), ih]
          simp [hbusy, Action.transmitted]
      | _ =>
          rw [hquiet (by simp), ih]
          simp [Action.transmitted]

/-! ## Order -/

/-- The accepted packets of `(q, v)`: those which are behind the deque, and then
those which are still in it. -/
theorem accepted_ids (hrun : Reaches weights actions s) (q : ℕ) (v : Fin k) :
    ∃ waiting, ids (actions.filterMap (Action.accepted q v)) =
      ids ((actions.filterMap Action.transmitted).filter (Packet.queuedAt q v)) ++ waiting := by
  rw [deque_run hrun, ids_append]
  have htaken := egress_run hrun q v
  rw [behind, List.filter_append, ids_append] at htaken
  rw [← taken, htaken, List.append_assoc]
  exact ⟨_, rfl⟩

theorem ids_sublist {first second : List Packet} (hsub : first.Sublist second) :
    (ids first).Sublist (ids second) :=
  hsub.map Packet.packetId

theorem ingressed_lt (hrun : Reaches weights actions s) :
    (ids (actions.filterMap Action.ingressed)).Pairwise (· < ·) := by
  have hrange : (ids (actions.filterMap Action.received)).Pairwise (· < ·) := by
    rw [received_run hrun]
    exact List.pairwise_lt_range
  rw [(ingress_run hrun).1] at hrange
  exact (List.pairwise_append.mp hrange).1

theorem accepted_sublist (actions : List (Action k)) (q : ℕ) (v : Fin k) :
    (actions.filterMap (Action.accepted q v)).Sublist (actions.filterMap Action.ingressed) :=
  filterMap_sublist
    (fun _ _ haccepted => ingressed_of_placed (placed_of_accepted haccepted)) actions

theorem eq_of_packetId (hrun : Reaches weights actions s) {x y : Packet}
    (hx : x ∈ actions.filterMap Action.ingressed) (hy : y ∈ actions.filterMap Action.ingressed)
    (hid : x.packetId = y.packetId) : x = y := by
  have hnodup : (ids (actions.filterMap Action.ingressed)).Nodup :=
    (ingressed_lt hrun).imp fun hlt => hlt.ne
  exact List.inj_on_of_nodup_map hnodup hx hy hid

theorem queuedAt_of_transmitted (hrun : Reaches weights actions s) {x y : Packet} {flag : Bool}
    (hx : (x, flag) ∈ actions.filterMap (Action.placed q v))
    (hy : y ∈ actions.filterMap Action.transmitted) (hid : y.packetId = x.packetId) :
    y.queuedAt q v = true := by
  have hvn : vnIdOf k y.phv < k := vnIdOf_lt v.pos y.phv
  have hown : y.queuedAt y.egressPort (⟨vnIdOf k y.phv, hvn⟩ : Fin k) = true := by
    simp [Packet.queuedAt]
  -- the number of `y` is that of an accepted packet `z` of the class of `y`
  obtain ⟨waiting, hids⟩ := accepted_ids hrun y.egressPort ⟨vnIdOf k y.phv, hvn⟩
  have hmem : y.packetId ∈ ids (actions.filterMap
      (Action.accepted y.egressPort ⟨vnIdOf k y.phv, hvn⟩)) := by
    rw [hids]
    exact List.mem_append_left _
      (List.mem_map_of_mem (List.mem_filter.mpr ⟨hy, hown⟩))
  obtain ⟨z, hz, hzid⟩ := List.mem_map.mp hmem
  obtain ⟨action, haction, hplaced⟩ := List.mem_filterMap.mp hx
  obtain ⟨action', haction', haccepted⟩ := List.mem_filterMap.mp hz
  have hzx : z = x := by
    apply eq_of_packetId hrun
    · exact (accepted_sublist actions _ _).subset hz
    · exact List.mem_filterMap.mpr ⟨action, haction, ingressed_of_placed hplaced⟩
    · rw [hzid, hid]
  have hzclass := queuedAt_of_placed (placed_of_accepted haccepted)
  have hxclass := queuedAt_of_placed hplaced
  rw [hzx] at hzclass
  obtain ⟨rfl, rfl⟩ := (queuedAt_iff hxclass _ _).mp hzclass
  exact hown

/-- `push_front` has rejected the packet, and it found the queue of the VN full. -/
def RejectedFull (weights : VnWeights k) (actions : List (Action k)) (q : ℕ) (v : Fin k)
    (packet : Packet) : Prop :=
  ∃ before call after s now, actions = before ++ .enqueue packet call :: after ∧
    call.result = .pushed false ∧ Reaches weights before s ∧
    let lq := (s.egressBuffers.getLogicalQueue weights.config q (egressThreadMapper q) now).2
    (lq.vnQueues v).capacity ≤ (lq.vnQueues v).size

theorem rejectedFull_of_placed (hrun : Reaches weights actions s) {packet : Packet}
    (hplaced : (packet, false) ∈ actions.filterMap (Action.placed q v)) :
    RejectedFull weights actions q v packet := by
  obtain ⟨action, haction, hshown⟩ := List.mem_filterMap.mp hplaced
  have hqueued := queuedAt_of_placed hshown
  obtain ⟨before, after, rfl⟩ := List.append_of_mem haction
  obtain ⟨s₁, hbefore, hafter⟩ := Run.of_append hrun
  obtain ⟨s₂, hstep, -⟩ := Run.of_cons hafter
  cases hstep with
  | enqueue now hbusy happly hforward hpush =>
      obtain ⟨i, hi, accepted, haccepted, rfl⟩ := step_pushFront hpush
      simp only [Action.placed, Option.ite_none_right_eq_some, Option.some.injEq,
        Prod.mk.injEq] at hshown
      obtain ⟨-, rfl, rfl⟩ := hshown
      simp only [Packet.queuedAt, decide_eq_true_eq] at hqueued
      obtain ⟨rfl, hvn⟩ := hqueued
      obtain ⟨ops, hops⟩ := run_history hbefore
      have hcoh := QueueingLogicVN.run_coherent hops
      exact ⟨before, _, after, s₁, _, rfl, rfl, hbefore,
        QueueingLogicVN.full_of_rejected hcoh haccepted hvn.symm⟩
  | _ => simp [Action.placed] at hshown

/-- Two packets of one port and VN: the one which has entered first is never
transmitted second, and it has been transmitted or rejected when the other one
has been transmitted. -/
theorem in_order_through_threads (hrun : Reaches weights actions s) {x y : Packet}
    {flagX flagY : Bool} (hx : (x, flagX) ∈ actions.filterMap (Action.placed q v))
    (hy : (y, flagY) ∈ actions.filterMap (Action.placed q v))
    (hbefore : [x.packetId, y.packetId].Sublist
      (ids (actions.filterMap Action.received))) :
    ¬[y.packetId, x.packetId].Sublist (ids (actions.filterMap Action.transmitted)) ∧
      (y.packetId ∈ ids (actions.filterMap Action.transmitted) →
        x.packetId ∈ ids (actions.filterMap Action.transmitted) ∨
          RejectedFull weights actions q v x) := by
  have hlt : x.packetId < y.packetId := by
    rw [received_run hrun] at hbefore
    exact List.rel_of_pairwise_cons (List.pairwise_lt_range.sublist hbefore) (by simp)
  -- the numbers of the accepted packets grow, the transmitted ones first
  obtain ⟨waiting, hids⟩ := accepted_ids hrun q v
  have hsorted : (ids (actions.filterMap (Action.accepted q v))).Pairwise (· < ·) :=
    (ingressed_lt hrun).sublist (ids_sublist (accepted_sublist actions q v))
  rw [hids] at hsorted
  have hsent := (List.pairwise_append.mp hsorted).1
  constructor
  · intro hswapped
    obtain ⟨pair, hpair, hpairIds⟩ := List.sublist_map_iff.mp hswapped
    have hclass : ∀ z ∈ pair, z.queuedAt q v = true := by
      intro z hz
      have hzid : z.packetId ∈ [y.packetId, x.packetId] := hpairIds ▸ List.mem_map_of_mem hz
      rw [List.mem_pair] at hzid
      cases hzid with
      | inl hzy => exact queuedAt_of_transmitted hrun hy (hpair.subset hz) hzy
      | inr hzx => exact queuedAt_of_transmitted hrun hx (hpair.subset hz) hzx
    have hclassed := ids_sublist (hpair.filter (Packet.queuedAt q v))
    rw [List.filter_eq_self.mpr hclass, ids, ← hpairIds] at hclassed
    have hgt : y.packetId < x.packetId :=
      List.rel_of_pairwise_cons (hsent.sublist hclassed) (by simp)
    omega
  · intro hyout
    obtain ⟨y', hy', hyid⟩ := List.mem_map.mp hyout
    have hysent : y.packetId ∈
        ids ((actions.filterMap Action.transmitted).filter (Packet.queuedAt q v)) := by
      rw [← hyid]
      exact List.mem_map_of_mem
        (List.mem_filter.mpr ⟨hy', queuedAt_of_transmitted hrun hy hy' hyid⟩)
    cases flagX with
    | false => exact Or.inr (rejectedFull_of_placed hrun hx)
    | true =>
        have hxmem : x.packetId ∈ ids (actions.filterMap (Action.accepted q v)) := by
          obtain ⟨action, haction, hplaced⟩ := List.mem_filterMap.mp hx
          apply List.mem_map_of_mem
          exact List.mem_filterMap.mpr ⟨action, haction, by simp [Action.accepted, hplaced]⟩
        rw [hids, List.mem_append] at hxmem
        cases hxmem with
        | inl hxsent =>
            obtain ⟨x', hx', hxid⟩ := List.mem_map.mp hxsent
            apply Or.inl
            rw [← hxid]
            exact List.mem_map_of_mem (List.mem_filter.mp hx').1
        | inr hxwaits =>
            have hgt := (List.pairwise_append.mp hsorted).2.2 _ hysent _ hxwaits
            omega

/-! ## A run with two packets -/

def oneVn : VnWeights 1 where
  weight _ := 1
  weight_pos _ := Int.one_pos

def headersAt (time : BitVec 48) : MyIngress.Packet where
  ipv4Valid := true
  ipv4Lpm := .ipv4Forward 2
  vnClassifier := some (.setVnParams 0 10)
  ingressGlobalTimestamp := time
  packetLength := 100

def atPort2 (packetId : ℕ) (egressSpec : BitVec 9) : Packet where
  packetId := packetId
  headers := headersAt 1
  phv := ⟨egressSpec, 0, 0⟩
  egressPort := 2

theorem Step.scan {s : SimpleSwitch k} (w : Fin 4) (now : Ticks)
    (hready : s.egressThread w = .ready) (hscan : (s.egressBuffers.scan w now).isSome) :
    let r := (s.egressBuffers.scan w now).get hscan
    Step weights s (.egressPop w ⟨.scan w now, .scanned r.2.1, r.2.2⟩)
      { s with
        egressBuffers := r.1
        egressThread :=
          Function.update s.egressThread w (.afterScan (.scanned r.2.1)) } := by
  intro r
  apply Step.egressPop w now hready
  have hr : s.egressBuffers.scan w now = some r := Option.eq_some_of_isSome hscan
  simp [QueueingLogicVN.step, hr]

theorem in_order_through_threads_two_packets :
    ∃ (actions : List (Action 1)) (s : SimpleSwitch 1), Reaches oneVn actions s ∧
      ids (actions.filterMap Action.transmitted) = [0, 1] ∧
      ¬[1, 0].Sublist (ids (actions.filterMap Action.transmitted)) := by
  have h : Reaches oneVn [.receive ⟨0, headersAt 1, ⟨0, 0, 0⟩, 0⟩] _ :=
    Run.single (Step.receive (headersAt 1) rfl)
  have h := h.snoc (Step.receive (headersAt 1) rfl)
  have h := h.snoc (Step.ingressPop rfl rfl)
  have h := h.snoc (Step.enqueue 1 rfl rfl (by decide) rfl)
  have h := h.snoc (Step.ingressPop rfl rfl)
  have h := h.snoc (Step.enqueue 2 rfl rfl (by decide) rfl)
  have h := h.snoc (Step.scan 2 3 rfl (by decide +kernel))
  have h := h.snoc (Step.egressPush 2 (atPort2 0 2) (by decide +kernel) rfl (by decide))
  have h := h.snoc (Step.scan 2 4 (by decide +kernel) (by decide +kernel))
  have h := h.snoc (Step.egressPush 2 (atPort2 1 2) (by decide +kernel) rfl (by decide))
  have h := h.snoc (Step.transmitPop rfl rfl)
  have h := h.snoc (Step.transmit rfl)
  have h := h.snoc (Step.transmitPop rfl rfl)
  have h := h.snoc (Step.transmit rfl)
  refine ⟨_, _, h, by decide +kernel, ?_⟩
  exact (in_order_through_threads h (q := 2) (v := 0) (x := atPort2 0 2) (y := atPort2 1 2)
    (by decide +kernel : (atPort2 0 2, true) ∈ _) (by decide +kernel : (atPort2 1 2, true) ∈ _)
    (by decide +kernel)).1

end SimpleSwitch

end Cmcs
